import Qwe.Kernel.Sound

/-!
# No impossible cell is reached

`dispatch_one` aborts the whole run on an impossible cell.  What rules them out
lies partly in the shell's flags (`Fits`), partly in what `epoll_wait` may
report: a batch is collected once and then worked through, while the jobs it
speaks of change.
-/

set_option autoImplicit false

namespace Qwe.Kernel

open Qwe.Lifecycle Qwe.Sched

/-! ## Tags -/

theorem tagMake_eq (j : Nat) (kind : EvKind) (step : Option Nat) :
    tagMake j kind step = j * 2 ^ 32 + (kind.ctorIdx * 2 ^ 24 + step.elim 0 (· + 1) % 2 ^ 24) := by
  have low : step.elim 0 (· + 1) % 2 ^ 24 < 2 ^ 24 := Nat.mod_lt _ (by decide)
  have kinds : kind.ctorIdx < 2 ^ 8 := by cases kind <;> decide
  have middle : kind.ctorIdx * 2 ^ 24 + step.elim 0 (· + 1) % 2 ^ 24 < 2 ^ 32 := by omega
  have masked : step.elim 0 (· + 1) &&& 0xFFFFFF = step.elim 0 (· + 1) % 2 ^ 24 :=
    Nat.and_two_pow_sub_one_eq_mod _ 24
  rw [tagMake, masked, Nat.or_assoc, ← Nat.shiftLeft_add_eq_or_of_lt low, Nat.shiftLeft_eq kind.ctorIdx,
    ← Nat.shiftLeft_add_eq_or_of_lt middle, Nat.shiftLeft_eq]

theorem tagJob_tagMake (j : Nat) (kind : EvKind) (step : Option Nat) :
    tagJob (tagMake j kind step) = j := by
  have low : step.elim 0 (· + 1) % 2 ^ 24 < 2 ^ 24 := Nat.mod_lt _ (by decide)
  have kinds : kind.ctorIdx < 2 ^ 8 := by cases kind <;> decide
  rw [tagJob, tagMake_eq, Nat.shiftRight_eq_div_pow]
  omega

theorem tagKind_tagMake (j : Nat) (kind : EvKind) (step : Option Nat) :
    tagKind (tagMake j kind step) = some kind := by
  have low : step.elim 0 (· + 1) % 2 ^ 24 < 2 ^ 24 := Nat.mod_lt _ (by decide)
  have kinds : kind.ctorIdx < 2 ^ 8 := by cases kind <;> decide
  have bits : (tagMake j kind step >>> 24) &&& 0xFF = kind.ctorIdx := by
    rw [show (0xFF : Nat) = 2 ^ 8 - 1 from rfl, Nat.and_two_pow_sub_one_eq_mod, tagMake_eq,
      Nat.shiftRight_eq_div_pow]
    omega
  rw [tagKind, bits]
  cases kind <;> rfl

theorem tagStep_tagMake (j : Nat) (kind : EvKind) {step : Nat} (fits : step + 1 < 2 ^ 24) :
    tagStep (tagMake j kind (some step)) = some step := by
  have bits : tagMake j kind (some step) &&& 0xFFFFFF = step + 1 := by
    rw [show (0xFFFFFF : Nat) = 2 ^ 24 - 1 from rfl, Nat.and_two_pow_sub_one_eq_mod, tagMake_eq]
    simp only [Option.elim_some]
    omega
  rw [tagStep, bits]

/-! ## What epoll reports -/

/-- The descriptors on the epoll, by the tag they were added under.  A timer is
reported only while it is armed and its expiry has not been read. -/
inductive Registered (ctx : RunCtx) : Nat → Prop where
  | signal (kind : EvKind) (signals : kind = .child ∨ kind = .cancel) :
      Registered ctx (tagMake tagNoJob kind none)
  | pipe (kind : EvKind) (pipes : kind = .out ∨ kind = .result) (j : Nat) (job : Job) (step : Nat)
      (here : ctx.jobs[j]? = some job) (live : job.liveStep = some step)
      (forked : job.procOk = true) : Registered ctx (tagMake j kind (some step))
  | stepTimer (j : Nat) (job : Job) (step : Nat) (here : ctx.jobs[j]? = some job)
      (live : job.liveStep = some step) (forked : job.procOk = true)
      (armed : job.stepTimer.armed = true) (unread : job.stepTimer.fired = false) :
      Registered ctx (tagMake j .stepTimer (some step))
  | graceTimer (j : Nat) (job : Job) (step : Nat) (here : ctx.jobs[j]? = some job)
      (live : job.liveStep = some step) (forked : job.procOk = true)
      (armed : job.graceTimer.armed = true) (unread : job.graceTimer.fired = false) :
      Registered ctx (tagMake j .graceTimer (some step))
  | jobTimer (j : Nat) (job : Job) (here : ctx.jobs[j]? = some job) (opened : job.timerOk = true)
      (armed : job.timer.armed = true) (unread : job.timer.fired = false) :
      Registered ctx (tagMake j .jobTimer none)

/-- A batch of `epoll_wait`: descriptors that are registered, each at most once. -/
def EpollReports (ctx : RunCtx) (a : Answer) : Prop :=
  ctx.loop = .wait → a.epoll.Nodup ∧ ∀ tag ∈ a.epoll, Registered ctx tag

/-! ## A tag and the job it speaks of

A step's tag outlives the step; it stays below the cursor then. -/

def TagFits (job : Job) (kind : EvKind) (step : Nat) : Prop :=
  step < job.cur ∨
    (job.liveStep = some step ∧ (kind = .stepTimer → job.stepTimer.fired = false) ∧
      (kind = .graceTimer → job.graceTimer.armed = true ∧ job.graceTimer.fired = false))

/-- The step `job` was at is over, or nothing about its timers was read. -/
def Held (job job' : Job) : Prop :=
  job.cur < job'.cur ∨
    (job'.cur = job.cur ∧ job'.liveStep = job.liveStep ∧
      job'.stepTimer.fired = job.stepTimer.fired ∧
      job'.graceTimer.fired = job.graceTimer.fired ∧
      (job.graceTimer.armed = true → job'.graceTimer.armed = true))

theorem held_refl (job : Job) : Held job job := Or.inr ⟨rfl, rfl, rfl, rfl, id⟩

theorem held_trans {first second third : Job} (before : Held first second)
    (after : Held second third) : Held first third := by
  rcases before with moved | ⟨cur, live, step, grace, armed⟩
  · rcases after with moved' | ⟨cur', _⟩
    · exact Or.inl (Nat.lt_trans moved moved')
    · exact Or.inl (by omega)
  · rcases after with moved' | ⟨cur', live', step', grace', armed'⟩
    · exact Or.inl (by omega)
    · exact Or.inr ⟨cur'.trans cur, live'.trans live, step'.trans step, grace'.trans grace,
        fun was => armed' (armed was)⟩

theorem held_stepFinish (job : Job) : Held job (stepFinish job) := by
  unfold stepFinish
  split
  · exact held_refl job
  · exact Or.inl (Nat.lt_succ_self job.cur)

theorem held_applyAction (a : Answer) (res : Result) (job : Job) {action : Action}
    (other : action ≠ .spawnStep) : Held job (applyAction a res job action) := by
  cases action with
  | spawnStep => contradiction
  | startJob =>
      simp only [applyAction, jobStart]
      split <;> exact Or.inr ⟨rfl, rfl, rfl, rfl, id⟩
  | armGrace => exact Or.inr ⟨rfl, rfl, rfl, rfl, fun _ => rfl⟩
  | endJob => exact held_trans (held_stepFinish job) (Or.inr ⟨rfl, rfl, rfl, rfl, id⟩)
  | _ => exact Or.inr ⟨rfl, rfl, rfl, rfl, id⟩

theorem held_foldl (a : Answer) (res : Result) (job : Job) {actions : List Action}
    (other : Action.spawnStep ∉ actions) : Held job (actions.foldl (applyAction a res) job) := by
  induction actions generalizing job with
  | nil => exact held_refl job
  | cons action actions ih =>
      rw [List.mem_cons, not_or] at other
      exact held_trans (held_applyAction a res job (Ne.symm other.1)) (ih _ other.2)

theorem held_acted (job : Job) (ev : Event) (res : Result) : Held job (acted job ev res) := by
  have entered : Held job (enter job ev res) := Or.inr ⟨rfl, rfl, rfl, rfl, id⟩
  unfold acted
  split
  · exact held_trans entered (held_stepFinish _)
  · exact entered

theorem tagFits_of_held {job job' : Job} {kind : EvKind} {step : Nat} (held : Held job job')
    (live : ∀ s, job.liveStep = some s → s = job.cur) (tag : TagFits job kind step) :
    TagFits job' kind step := by
  rcases tag with past | ⟨here, timer, grace⟩
  · left
    rcases held with moved | ⟨cur, _⟩ <;> omega
  · rcases held with moved | ⟨_, live', fired, killed, armed⟩
    · exact Or.inl (live step here ▸ moved)
    · exact Or.inr ⟨live'.trans here, fun is => fired.trans (timer is),
        fun is => ⟨armed (grace is).1, killed.trans (grace is).2⟩⟩

theorem tagFits_of_dispatch {a : Answer} {job job' : Job} {ev : Event} {pl : Payload}
    {evStep : Option Nat} {kind : EvKind} {step : Nat}
    (live : ∀ s, job.liveStep = some s → s = job.cur)
    (between : phase job.state = .between → job.liveStep = none)
    (sent : dispatchOne a job ev pl evStep = some job') (tag : TagFits job kind step) :
    TagFits job' kind step := by
  rcases dispatchOne_cases sent with ⟨_, rfl⟩ | ⟨_, ⟨_, rfl⟩ | ⟨res, moves, _, rfl⟩⟩
  · exact tag
  · exact tagFits_of_held (held_acted job ev _) live tag
  by_cases spawns : Action.spawnStep ∈ res.actions
  · obtain ⟨here, rfl, actions⟩ := react_spawnStep moves spawns
    have past : step < job.cur := by
      rcases tag with past | ⟨liveHere, _⟩
      · exact past
      · rw [between here] at liveHere
        contradiction
    left
    rw [actions]
    simp only [List.foldl_cons, List.foldl_nil, applyAction, stepSpawn]
    split <;> exact past
  · exact tagFits_of_held (held_trans (held_acted job ev res) (held_foldl a res _ spawns)) live tag

/-! ## The batch -/

/-- A tag of the batch, when its turn comes. -/
inductive TagOk (jobs : List Job) : Nat → Prop where
  | signal (kind : EvKind) (signals : kind = .child ∨ kind = .cancel) :
      TagOk jobs (tagMake tagNoJob kind none)
  | step (j : Nat) (kind : EvKind) (step : Nat) (job : Job) (ofStep : kind ≠ .jobTimer)
      (fits : step + 1 < 2 ^ 24) (here : jobs[j]? = some job) (tag : TagFits job kind step) :
      TagOk jobs (tagMake j kind (some step))
  | jobTimer (j : Nat) (job : Job) (here : jobs[j]? = some job)
      (started : phase job.state ≠ .pending ∧ phase job.state ≠ .ready) :
      TagOk jobs (tagMake j .jobTimer none)

/-- The events of the batch that are still to be handled. -/
def Loop.tags : Loop → List Nat
  | .batch tags => tags
  | .reap rest => rest
  | .groupCheck _ rest => rest
  | _ => []

structure Batched (ctx : RunCtx) : Prop where
  nodup : ctx.loop.tags.Nodup
  ok : ∀ tag ∈ ctx.loop.tags, TagOk ctx.jobs tag

section Tags
variable {jobs : List Job} {tag : Nat} {job : Job}

theorem TagOk.ofStep {kind : EvKind} (ok : TagOk jobs tag)
    (is : tagKind tag = some kind) (timed : kind = .stepTimer ∨ kind = .graceTimer)
    (here : jobs[tagJob tag]? = some job) :
    ∃ step, tag = tagMake (tagJob tag) kind (some step) ∧ tagStep tag = some step ∧
      TagFits job kind step := by
  cases ok with
  | signal other signals =>
      rw [tagKind_tagMake, Option.some.injEq] at is
      subst is
      rcases signals with rfl | rfl <;> simp at timed
  | step j other step owner _ fits found tag =>
      rw [tagKind_tagMake, Option.some.injEq] at is
      subst is
      rw [tagJob_tagMake, found, Option.some.injEq] at here
      subst here
      exact ⟨step, by rw [tagJob_tagMake], tagStep_tagMake j other fits, tag⟩
  | jobTimer =>
      rw [tagKind_tagMake, Option.some.injEq] at is
      subst is
      simp at timed

theorem TagOk.ofJob (ok : TagOk jobs tag) (is : tagKind tag = some .jobTimer)
    (here : jobs[tagJob tag]? = some job) :
    phase job.state ≠ .pending ∧ phase job.state ≠ .ready := by
  cases ok with
  | signal other signals =>
      rw [tagKind_tagMake, Option.some.injEq] at is
      subst is
      simp at signals
  | step j other step owner ofStep =>
      rw [tagKind_tagMake, Option.some.injEq] at is
      exact absurd is ofStep
  | jobTimer j owner found started =>
      rw [tagJob_tagMake, found, Option.some.injEq] at here
      subst here
      exact started

end Tags

section Calls
variable {w : Workflow} {a : Answer} {ctx ctx' : RunCtx} {call : Call}

theorem possible_cancel (coe : Bool) (p : Phase) : react coe p .cancel ≠ .impossible := by
  rcases p with _ | _ | _ | ⟨flag, signal⟩ | ⟨verdict, killed⟩ | _
  all_goals try simp [react]
  · cases signal <;> simp [settle]
  · cases verdict <;> simp

theorem tagLive_iff {tag : Nat} {job : Job} :
    tagLive tag job = true ↔ tagStep tag = job.liveStep ∧ job.procOk = true := by
  simp [tagLive]

/-- The step timer's event comes once, while the group has not been signalled. -/
theorem possible_stepTimer {tag : Nat} (job : Job) {pl : Payload} (fits : Fits job)
    (owed : job.followup = none) (ok : TagOk ctx.jobs tag)
    (kind : tagKind tag = some .stepTimer) (here : ctx.jobs[tagJob tag]? = some job)
    (live : tagLive tag job = true) :
    react pl.coe (phase job.state) .stepTimeout ≠ .impossible := by
  obtain ⟨step, _, named, tagFits⟩ := ok.ofStep kind (Or.inl rfl) here
  have liveHere : job.liveStep = some step := (tagLive_iff.mp live).1.symm.trans named
  have unread : job.stepTimer.fired = false := by
    rcases tagFits with past | ⟨_, unread, _⟩
    · have := live_eq_cur fits step liveHere
      omega
    · exact unread rfl
  rcases phase_of_live fits (by simp [liveHere]) with ⟨coe, signal, at_⟩ | ⟨verdict, killed, at_⟩
  · have forked := forked_of_fits fits owed at_
    cases signal with
    | none => simp [at_, react]
    | term => simp [forked.timedOut] at unread
    | kill => simp [forked.timedOut] at unread
  · simp [at_, react]

theorem possible_graceTimer {tag : Nat} (job : Job) {pl : Payload} (fits : Fits job)
    (owed : job.followup = none) (ok : TagOk ctx.jobs tag)
    (kind : tagKind tag = some .graceTimer) (here : ctx.jobs[tagJob tag]? = some job)
    (live : tagLive tag job = true) :
    react pl.coe (phase job.state) .graceExpired ≠ .impossible := by
  obtain ⟨step, _, named, tagFits⟩ := ok.ofStep kind (Or.inr rfl) here
  have liveHere : job.liveStep = some step := (tagLive_iff.mp live).1.symm.trans named
  obtain ⟨armed, unread⟩ : job.graceTimer.armed = true ∧ job.graceTimer.fired = false := by
    rcases tagFits with past | ⟨_, _, unread⟩
    · have := live_eq_cur fits step liveHere
      omega
    · exact unread rfl
  rcases phase_of_live fits (by simp [liveHere]) with ⟨coe, signal, at_⟩ | ⟨verdict, killed, at_⟩
  · have forked := forked_of_fits fits owed at_
    cases signal with
    | none => simp [forked.armed] at armed
    | term => simp [at_, react]
    | kill => simp [forked.fired, Signal.killed] at unread
  · rw [Fits, at_] at fits
    rw [fits.fired] at unread
    subst unread
    simp [at_, react]

theorem possible_jobTimer (job : Job) {pl : Payload} (fits : Fits job)
    (opened : job.timerOk = true) (untold : job.timeoutTold = false) :
    react pl.coe (phase job.state) .jobTimeout ≠ .impossible := by
  rw [Fits] at fits
  cases at_ : phase job.state with
  | pending => rw [at_] at fits; simp [fits.timer] at opened
  | ready => rw [at_] at fits; simp [fits.timer] at opened
  | between => simp [react]
  | undecided coe signal => cases signal <;> simp [react, settle]
  | settling verdict killed =>
      rw [at_] at fits
      cases verdict with
      | cancelTimeout => simp [fits.timeoutTold] at untold
      | _ => simp [react]
  | final outcome => rw [at_] at fits; simp [fits.timer] at opened

/-- No call site meets an impossible cell. -/
theorem Sends.possible (sends : Sends w a ctx call) (sound : Sound ctx) (batched : Batched ctx)
    (fresh : eventIsStale call.read.state call.ev call.evStep call.read.liveStep = false) :
    react call.pl.coe (phase call.read.state) call.ev ≠ .impossible := by
  have fits : Fits call.job := sound.fits _ (List.mem_of_getElem? sends.here)
  have calm : ctx.sending = none → Calm call.job := by
    intro idle
    exact sound.calm call.index call.job sends.here (by simp [idle])
  have member : ∀ {tag tags}, ctx.loop = .batch (tag :: tags) → tag ∈ ctx.loop.tags := by
    intro tag tags at_
    simp [at_, Loop.tags]
  cases sends with
  | skip i job idle at_ here =>
      have pending := (sound.untouched i at_ i (Nat.le_refl i)).2 job here
      simp [pending, phase, react]
  | cancel => exact possible_cancel _ _
  | sched ev evs job idle at_ here =>
      rcases sound.dueAt at_ here with
        ⟨pending, kind | kind⟩ | ⟨ready, kind⟩
      · simp [pending, kind, phase, react]
      · simp [pending, kind, phase, react]
      · simp [ready, kind, phase, react]
  | owed j job ev sending here owes =>
      obtain ⟨rfl, ⟨at_, _⟩ | ⟨coe, at_, _⟩⟩ := startFailed_of_owed fits owes
      · simp [at_, react]
      · simp [at_, react]
  | pollCancel => exact possible_cancel _ _
  | pollTimeout j job sending here owed between => simp [between, phase, react]
  | nextStep j job step sending here owed between => simp [between, phase, react]
  | noMoreSteps j job sending here owed between => simp [between, phase, react]
  | stepTimer tag tags job idle at_ kind here live =>
      exact possible_stepTimer job fits (calm idle).owed (batched.ok tag (member at_)) kind
        here live
  | graceTimer tag tags job idle at_ kind here live =>
      exact possible_graceTimer job fits (calm idle).owed (batched.ok tag (member at_)) kind
        here live
  | lateTimer tag tags job ev idle at_ kind here late =>
      have ok := batched.ok tag (member at_)
      obtain ⟨step, named⟩ : ∃ step, tagStep tag = some step := by
        rcases kind with ⟨is, _⟩ | ⟨is, _⟩
        · obtain ⟨step, _, named, _⟩ := ok.ofStep is (Or.inl rfl) here
          exact ⟨step, named⟩
        · obtain ⟨step, _, named, _⟩ := ok.ofStep is (Or.inr rfl) here
          exact ⟨step, named⟩
      have liveHere : job.liveStep = some step := by
        rw [← named]
        rcases kind with ⟨_, rfl⟩ | ⟨_, rfl⟩
        · exact (by simpa [eventIsStale] using fresh : tagStep tag = job.liveStep).symm
        · exact (by simpa [eventIsStale] using fresh : tagStep tag = job.liveStep).symm
      have unforked : job.procOk = false := by
        simpa [tagLive, named, liveHere] using late
      rcases phase_of_live fits (by simp [liveHere]) with
        ⟨coe, signal, at_⟩ | ⟨verdict, killed, at_⟩
      · have proc := (forked_of_fits fits (calm idle).owed at_).proc
        simp [unforked] at proc
      · rw [Fits, at_] at fits
        have proc := fits.proc
        simp [unforked] at proc
  | jobTimer tag tags job idle at_ kind here asks =>
      exact possible_jobTimer job fits asks.1 asks.2
  | lateJobTimer tag tags job idle at_ kind here closed =>
      have started := (batched.ok tag (member at_)).ofJob kind here
      have between : phase job.state ≠ .between := by
        intro between
        exact (calm idle).apart (phase_injective between)
      have ended : job.state.isFinal = false := by simpa [eventIsStale] using fresh
      rw [Fits] at fits
      cases at_ : phase job.state with
      | pending => exact absurd at_ started.1
      | ready => exact absurd at_ started.2
      | between => exact absurd at_ between
      | undecided coe signal =>
          rw [at_] at fits
          exact absurd fits.timer (by simp [closed])
      | settling verdict killed =>
          rw [at_] at fits
          exact absurd fits.timer (by simp [closed])
      | final outcome =>
          rw [(isFinal_iff job.state).mpr ⟨outcome, at_⟩] at ended
          contradiction
  | leaderExit e j job rest idle at_ waited here leader =>
      rcases phase_of_live fits leader.1 with ⟨coe, signal, at_⟩ | ⟨verdict, killed, at_⟩
      · obtain ⟨verdict, kind, moves, _⟩ :=
          react_leaderExit false coe signal (leaderExitEvent_exits job e)
        simp [at_, moves, settle, reapPayload]
      · rcases leaderExitEvent_exits job e with is | is <;> simp [at_, is, react]
  | groupEmpty i job rest idle at_ here gone =>
      rcases phase_of_live fits gone.1 with ⟨coe, signal, at_⟩ | ⟨verdict, killed, at_⟩
      · have reaped := (forked_of_fits fits (calm idle).owed at_).reaped
        simp [gone.2.2] at reaped
      · cases verdict <;> simp [at_, react, settled]

/-! ## The batch along a run -/

/-- Reading a timer spoils the tags of that timer only. -/
theorem Sends.tagFits_read (sends : Sends w a ctx call) (batched : Batched ctx)
    {kind : EvKind} {step : Nat} (member : tagMake call.index kind (some step) ∈ call.loop.tags)
    (tag : TagFits call.job kind step) : TagFits call.read kind step := by
  cases sends with
  | stepTimer head tags job idle at_ is here live =>
      rcases tag with past | ⟨liveHere, timer, grace⟩
      · exact Or.inl past
      refine Or.inr ⟨liveHere, fun isStep => ?_, grace⟩
      subst isStep
      obtain ⟨step', made, named, _⟩ :=
        (batched.ok head (by simp [at_, Loop.tags])).ofStep is (Or.inl rfl) here
      have same : step' = step :=
        Option.some.inj ((named.symm.trans (tagLive_iff.mp live).1).trans liveHere)
      have nodup := batched.nodup
      rw [at_, Loop.tags, List.nodup_cons, made, same] at nodup
      exact absurd member nodup.1
  | graceTimer head tags job idle at_ is here live =>
      rcases tag with past | ⟨liveHere, timer, grace⟩
      · exact Or.inl past
      refine Or.inr ⟨liveHere, timer, fun isGrace => ?_⟩
      subst isGrace
      obtain ⟨step', made, named, _⟩ :=
        (batched.ok head (by simp [at_, Loop.tags])).ofStep is (Or.inr rfl) here
      have same : step' = step :=
        Option.some.inj ((named.symm.trans (tagLive_iff.mp live).1).trans liveHere)
      have nodup := batched.nodup
      rw [at_, Loop.tags, List.nodup_cons, made, same] at nodup
      exact absurd member nodup.1
  | _ => exact tag

theorem Sends.tags_sublist (sends : Sends w a ctx call) :
    call.loop.tags.Sublist ctx.loop.tags := by
  cases sends with
  | owed => exact List.Sublist.refl _
  | pollCancel => exact List.Sublist.refl _
  | pollTimeout => exact List.Sublist.refl _
  | nextStep => exact List.Sublist.refl _
  | noMoreSteps => exact List.Sublist.refl _
  | skip => exact List.nil_sublist _
  | cancel => exact List.nil_sublist _
  | sched => exact List.nil_sublist _
  | stepTimer tag tags job idle at_ => rw [at_]; exact List.sublist_cons_self tag tags
  | graceTimer tag tags job idle at_ => rw [at_]; exact List.sublist_cons_self tag tags
  | lateTimer tag tags job ev idle at_ => rw [at_]; exact List.sublist_cons_self tag tags
  | jobTimer tag tags job idle at_ => rw [at_]; exact List.sublist_cons_self tag tags
  | lateJobTimer tag tags job idle at_ => rw [at_]; exact List.sublist_cons_self tag tags
  | leaderExit e j job rest idle at_ => exact at_ ▸ List.Sublist.refl _
  | groupEmpty i job rest idle at_ => exact at_ ▸ List.Sublist.refl _

/-- A quiet step adds no tags, except that `epoll_wait` returns. -/
theorem Quiet.tags (quiet : Quiet w a ctx ctx') :
    ctx'.loop.tags.Sublist ctx.loop.tags ∨ (ctx.loop = .wait ∧ ctx'.loop.tags = a.epoll) := by
  cases quiet with
  | sent => exact Or.inl (List.Sublist.refl _)
  | wait idle at_ => exact Or.inr ⟨at_, rfl⟩
  | schedule =>
      left
      unfold Kernel.schedule
      split <;> exact List.nil_sublist _
  | tally =>
      left
      unfold Kernel.tally
      split
      · exact List.nil_sublist _
      split <;> exact List.nil_sublist _
  | cancelNone again =>
      left
      unfold afterBroadcast
      split <;> exact List.nil_sublist _
  | cancelDone again =>
      left
      unfold afterBroadcast
      split <;> exact List.nil_sublist _
  | batchNext tag tags idle at_ => rw [at_]; exact Or.inl (List.sublist_cons_self tag tags)
  | batchChild tag tags idle at_ => rw [at_]; exact Or.inl (List.sublist_cons_self tag tags)
  | batchCancel tag tags idle at_ => rw [at_]; exact Or.inl (List.sublist_cons_self tag tags)
  | orphan => exact Or.inl (List.Sublist.refl _)
  | halted => exact Or.inl (List.Sublist.refl _)
  | reapDone rest idle at_ => rw [at_]; exact Or.inl (List.Sublist.refl _)
  | groupNext i rest idle at_ => rw [at_]; exact Or.inl (List.Sublist.refl _)
  | groupDone i rest idle at_ => rw [at_]; exact Or.inl (List.Sublist.refl _)
  | _ => exact Or.inl (List.nil_sublist _)

/-- A job that has started does not wait again. -/
theorem started_of_dispatch {job job' : Job} {ev : Event} {pl : Payload} {evStep : Option Nat}
    (sent : dispatchOne a job ev pl evStep = some job')
    (started : phase job.state ≠ .pending ∧ phase job.state ≠ .ready) :
    phase job'.state ≠ .pending ∧ phase job'.state ≠ .ready := by
  rcases dispatchOne_cases sent with ⟨_, rfl⟩ | ⟨_, ⟨_, rfl⟩ | ⟨res, moves, _, rfl⟩⟩
  · exact started
  · rwa [acted_state]
  · rw [(foldl_applyAction_frame a res res.actions _).1, acted_state]
    exact react_started moves started

theorem tagOk_of_registered {tag : Nat} (sound : Sound ctx)
    (short : ∀ job ∈ ctx.jobs, job.spec.steps.length < 2 ^ 24) (registered : Registered ctx tag) :
    TagOk ctx.jobs tag := by
  have inTag : ∀ {j : Nat} {job : Job} {step : Nat}, ctx.jobs[j]? = some job → job.liveStep = some step →
      step + 1 < 2 ^ 24 := by
    intro j job step here live
    have member := List.mem_of_getElem? here
    have fits := sound.fits job member
    have bound := short job member
    have same := live_eq_cur fits step live
    rw [Fits] at fits
    rcases phase_of_live (sound.fits job member) (by simp [live]) with
      ⟨coe, signal, at_⟩ | ⟨verdict, killed, at_⟩
    · rw [at_] at fits
      have := fits.inRange
      omega
    · rw [at_] at fits
      have := fits.inRange
      omega
  cases registered with
  | signal kind signals => exact .signal kind signals
  | pipe kind pipes j job step here live forked =>
      refine .step j kind step job ?_ (inTag here live) here (Or.inr ⟨live, ?_, ?_⟩) <;>
        rcases pipes with rfl | rfl <;> simp
  | stepTimer j job step here live forked armed unread =>
      exact .step j _ step job (by simp) (inTag here live) here
        (Or.inr ⟨live, fun _ => unread, by simp⟩)
  | graceTimer j job step here live forked armed unread =>
      exact .step j _ step job (by simp) (inTag here live) here
        (Or.inr ⟨live, by simp, fun _ => ⟨armed, unread⟩⟩)
  | jobTimer j job here opened =>
      refine .jobTimer j job here ⟨fun at_ => ?_, fun at_ => ?_⟩ <;>
        · have fits := sound.fits job (List.mem_of_getElem? here)
          rw [Fits, at_] at fits
          simp [fits.timer] at opened

theorem batched_step (sound : Sound ctx)
    (short : ∀ job ∈ ctx.jobs, job.spec.steps.length < 2 ^ 24) (batched : Batched ctx)
    (reports : EpollReports ctx a) (moved : stepKernel w ctx a = some ctx') : Batched ctx' := by
  rcases stepKernel_cases moved with quiet | ⟨call, job', sends, sent, rfl⟩
  · rcases quiet.tags with fewer | ⟨waits, batch⟩
    · refine ⟨fewer.nodup batched.nodup, fun tag member => ?_⟩
      rw [quiet.jobs]
      exact batched.ok tag (fewer.subset member)
    · obtain ⟨nodup, registered⟩ := reports waits
      refine ⟨batch ▸ nodup, fun tag member => ?_⟩
      rw [quiet.jobs]
      exact tagOk_of_registered sound short (registered tag (batch ▸ member))
  · refine ⟨sends.tags_sublist.nodup batched.nodup, fun tag member => ?_⟩
    have fits : Fits call.job := sound.fits _ (List.mem_of_getElem? sends.here)
    have inRange : call.index < ctx.jobs.length :=
      (List.getElem?_eq_some_iff.mp sends.here).1
    have ok := batched.ok tag (sends.tags_sublist.subset member)
    cases ok with
    | signal kind signals => exact .signal kind signals
    | step j kind step job ofStep fitsTag here tagFits =>
        by_cases same : call.index = j
        · subst same
          rw [sends.here, Option.some.injEq] at here
          subst here
          refine .step call.index kind step job' ofStep fitsTag
            (List.getElem?_set_self inRange) ?_
          refine tagFits_of_dispatch ?_ ?_ sent
            (sends.tagFits_read batched member tagFits)
          · rw [sends.read_live.1, sends.read_live.2]
            exact live_eq_cur fits
          · intro between
            rw [sends.read_spec.2] at between
            rw [Fits, between] at fits
            rw [sends.read_live.1]
            exact fits.live
        · exact .step j kind step job ofStep fitsTag (by rwa [List.getElem?_set_ne same]) tagFits
    | jobTimer j job here started =>
        by_cases same : call.index = j
        · subst same
          rw [sends.here, Option.some.injEq] at here
          subst here
          exact .jobTimer call.index job' (List.getElem?_set_self inRange)
            (started_of_dispatch sent (sends.read_spec.2 ▸ started))
        · exact .jobTimer j job (by rwa [List.getElem?_set_ne same]) started

/-- `dispatch_one` never aborts: whatever the jobs, in whatever order and batches
the events come, the next step of the kernel finds a transition or an ignore. -/
theorem kernel_never_aborts (w : Workflow)
    (short : ∀ spec ∈ w.jobs, spec.steps.length < 2 ^ 24) {ctx : RunCtx}
    (reachable : (machine w).Reachable EpollReports ctx) (a : Answer) :
    ∃ ctx', stepKernel w ctx a = some ctx' := by
  have shortJobs : ∀ {ctx}, (machine w).Reachable EpollReports ctx →
      ∀ job ∈ ctx.jobs, job.spec.steps.length < 2 ^ 24 := by
    intro ctx reachable job member
    refine short job.spec ?_
    rw [← specs_of_reachable reachable]
    exact List.mem_map_of_mem member
  have batched : Batched ctx := by
    induction reachable with
    | refl => exact ⟨List.nodup_nil, by simp [machine, RunCtx.initial, Loop.tags]⟩
    | tail run a ok moved ih =>
        exact batched_step (sound_of_reachable run) (shortJobs run) ih ok moved
  have sound := sound_of_reachable reachable
  rcases stepKernel_explained w ctx a with ⟨ctx', result, _⟩ | ⟨call, sends, result⟩
  · exact ⟨ctx', result⟩
  · obtain ⟨job', sent⟩ :=
      dispatchOne_ne_none (a := a) (fun fresh => sends.possible sound batched fresh)
    exact ⟨_, by rw [result, Call.perform, jobSend, sent, Option.map_some]⟩

end Calls

/-- The one job of the workflow runs its step; the loop waits. -/
theorem solo_waits : ∃ (ctx : RunCtx) (job : Job),
    (machine (localJobs ["solo"] true)).Reachable EpollReports ctx ∧ ctx.sending = none ∧
      ctx.loop = .wait ∧ ctx.jobs = [job] ∧ job.state = .stepRunningCoe ∧
      job.liveStep = some 0 ∧ job.procOk = true ∧ job.stepTimer.armed = true ∧
      job.stepTimer.fired = false := by
  have waits : ∀ (ctx : RunCtx) (a : Answer),
      decide (ctx.loop ≠ .wait) = true → EpollReports ctx a := by
    intro ctx a apart at_
    simp [at_] at apart
  refine ⟨_, _, Machine.run_of_replay _ waits (List.replicate 15 Answer.calm) rfl, rfl, rfl, rfl, ?_⟩
  exact ⟨rfl, rfl, rfl, rfl, rfl⟩

/-- The step timer of the running step has just been reported. -/
theorem kernel_never_aborts_solo : ∃ ctx : RunCtx,
    (machine (localJobs ["solo"] true)).Reachable EpollReports ctx ∧
      ctx.loop = .batch [tagMake 0 .stepTimer (some 0)] ∧
      ctx.jobs.map (·.state) = [.stepRunningCoe] ∧
      ∀ a, ∃ ctx', stepKernel (localJobs ["solo"] true) ctx a = some ctx' := by
  obtain ⟨ctx, job, reachable, idle, at_, jobs, state, live, forked, armed, unread⟩ := solo_waits
  let reported : Answer := { Answer.calm with epoll := [tagMake 0 .stepTimer (some 0)] }
  have registered : EpollReports ctx reported := by
    intro _
    refine ⟨List.nodup_singleton _, fun tag member => ?_⟩
    rw [List.mem_singleton.mp member]
    exact .stepTimer 0 job 0 (by simp [jobs]) live forked armed unread
  have moved : stepKernel (localJobs ["solo"] true) ctx reported =
      some { ctx with loop := .batch [tagMake 0 .stepTimer (some 0)] } := by
    simp only [stepKernel, idle, runLoop, at_]
    rfl
  have later := Machine.Run.tail reachable reported registered moved
  refine ⟨_, later, rfl, by simp [jobs, state], fun a => ?_⟩
  exact kernel_never_aborts (localJobs ["solo"] true) (by simp [localJobs]) later a

end Qwe.Kernel
