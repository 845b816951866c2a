import Qwe.Kernel.Loop

/-!
# The flags of the shell fit the state

Beside its state a job carries flags the table never sees: whether a step is
live, its process was forked, its leader reaped, which triggers it was told, and
what the shell still owes it.  `Fits` ties them to the phase of the state, and
every event the kernel sends keeps the two together.
-/

set_option autoImplicit false

namespace Qwe.Kernel

open Qwe.Lifecycle

/-! ## The invariant -/

structure Waiting (job : Job) : Prop where
  live : job.liveStep = none
  proc : job.procOk = false
  cur : job.cur = 0
  steps : job.steps = none
  timer : job.timerOk = false
  followup : job.followup = none
  cancelTold : job.cancelTold = false
  timeoutTold : job.timeoutTold = false

/-- A started job with no live step.  If `job_start` failed, start-failed is owed. -/
structure BetweenSteps (job : Job) : Prop where
  live : job.liveStep = none
  proc : job.procOk = false
  cancelTold : job.cancelTold = false
  timeoutTold : job.timeoutTold = false
  cur : job.cur ≤ job.spec.steps.length
  opened :
    (job.followup = some .startFailed ∧ job.steps = none ∧ job.timerOk = false) ∨
    (job.followup = none ∧ job.steps.isSome = true ∧ job.timerOk = true)

structure Live (job : Job) : Prop where
  live : job.liveStep = some job.cur
  inRange : job.cur < job.spec.steps.length
  steps : job.steps.isSome = true
  timer : job.timerOk = true

/-- The leader of a forked step has not been reaped while the step is undecided,
and the timers show which signal was sent. -/
structure Forked (sent : Signal) (job : Job) : Prop where
  followup : job.followup = none
  proc : job.procOk = true
  reaped : job.leaderReaped = false
  armed : job.graceTimer.armed = decide (sent ≠ .none)
  fired : job.graceTimer.fired = sent.killed
  timedOut : sent ≠ .none → job.stepTimer.fired = true

structure Undecided (coe : Bool) (sent : Signal) (job : Job) : Prop extends Live job where
  cancelTold : job.cancelTold = false
  timeoutTold : job.timeoutTold = false
  coe : (job.spec.steps[job.cur]?).map (·.continueOnError) = some coe
  forked :
    (job.followup = some .startFailed ∧ job.procOk = false ∧ sent = .none) ∨ Forked sent job

structure Settling (verdict : Verdict) (killed : Bool) (job : Job) : Prop extends Live job where
  followup : job.followup = none
  proc : job.procOk = true
  armed : job.graceTimer.armed = true
  fired : job.graceTimer.fired = killed
  reaped : verdict = .goOn ∨ verdict = .fail → job.leaderReaped = true
  cancelTold : job.cancelTold = decide (verdict = .cancelRequested)
  timeoutTold : verdict ≠ .cancelRequested →
    job.timeoutTold = decide (verdict = .cancelTimeout)

structure Over (job : Job) : Prop where
  live : job.liveStep = none
  proc : job.procOk = false
  timer : job.timerOk = false
  followup : job.followup = none

def FitsAt : Phase → Job → Prop
  | .pending, job => Waiting job
  | .ready, job => Waiting job
  | .between, job => BetweenSteps job
  | .undecided coe sent, job => Undecided coe sent job
  | .settling verdict killed, job => Settling verdict killed job
  | .final _, job => Over job

def Fits (job : Job) : Prop := FitsAt (phase job.state) job

theorem fits_initial (spec : JobSpec) (detail : Option String) :
    Fits (Job.initial spec detail) := by
  constructor <;> rfl

/-- The job's own timer plays no part. -/
theorem fits_readTimer {job : Job} (fits : Fits job) (readable : Bool) :
    Fits (job.readTimer readable) := by
  rw [Fits] at fits
  rw [Fits, show (job.readTimer readable).state = job.state from rfl]
  cases at_ : phase job.state with
  | pending => rw [at_] at fits; exact { fits with }
  | ready => rw [at_] at fits; exact { fits with }
  | between => rw [at_] at fits; exact { fits with }
  | undecided coe sent =>
      rw [at_] at fits
      exact { fits with forked := fits.forked.imp id fun forked => { forked with } }
  | settling verdict killed => rw [at_] at fits; exact { fits with }
  | final outcome => rw [at_] at fits; exact { fits with }

/-- The live step is the one at the cursor. -/
theorem live_eq_cur {job : Job} (fits : Fits job) (s : Nat) (live : job.liveStep = some s) :
    s = job.cur := by
  rw [Fits] at fits
  cases at_ : phase job.state with
  | undecided coe signal =>
      rw [at_] at fits
      exact (Option.some.inj (fits.live.symm.trans live)).symm
  | settling verdict killed =>
      rw [at_] at fits
      exact (Option.some.inj (fits.live.symm.trans live)).symm
  | pending => rw [at_] at fits; simp [fits.live] at live
  | ready => rw [at_] at fits; simp [fits.live] at live
  | between => rw [at_] at fits; simp [fits.live] at live
  | final outcome => rw [at_] at fits; simp [fits.live] at live

/-- A live step is undecided or settling. -/
theorem phase_of_live {job : Job} (fits : Fits job) (live : job.liveStep.isSome = true) :
    (∃ coe signal, phase job.state = .undecided coe signal) ∨
      ∃ verdict killed, phase job.state = .settling verdict killed := by
  rw [Fits] at fits
  cases at_ : phase job.state with
  | undecided coe signal => exact Or.inl ⟨coe, signal, rfl⟩
  | settling verdict killed => exact Or.inr ⟨verdict, killed, rfl⟩
  | pending => rw [at_] at fits; simp [fits.live] at live
  | ready => rw [at_] at fits; simp [fits.live] at live
  | between => rw [at_] at fits; simp [fits.live] at live
  | final outcome => rw [at_] at fits; simp [fits.live] at live

/-! ## What the actions leave alone -/

@[simp] theorem note_state (job : Job) (entry : Note) : (job.note entry).state = job.state := rfl

@[simp] theorem reapLeader_state (job : Job) (changed : Bool) :
    (job.reapLeader changed).state = job.state := rfl

@[simp] theorem readStepTimer_state (job : Job) (readable : Bool) :
    (job.readStepTimer readable).state = job.state := rfl

@[simp] theorem readGraceTimer_state (job : Job) (readable : Bool) :
    (job.readGraceTimer readable).state = job.state := rfl

@[simp] theorem readTimer_state (job : Job) (readable : Bool) :
    (job.readTimer readable).state = job.state := rfl

@[simp] theorem stepFinish_state (job : Job) : (stepFinish job).state = job.state := by
  unfold stepFinish
  split <;> rfl

@[simp] theorem stepFinish_spec (job : Job) : (stepFinish job).spec = job.spec := by
  unfold stepFinish
  split <;> rfl

@[simp] theorem stepFinish_detail (job : Job) : (stepFinish job).detail = job.detail := by
  unfold stepFinish
  split <;> rfl

theorem applyAction_frame (a : Answer) (res : Result) (job : Job) (action : Action) :
    (applyAction a res job action).state = job.state ∧
      (applyAction a res job action).spec = job.spec ∧
      (applyAction a res job action).detail = job.detail := by
  cases action with
  | startJob =>
      simp only [applyAction, jobStart]
      split <;> exact ⟨rfl, rfl, rfl⟩
  | spawnStep =>
      simp only [applyAction, stepSpawn]
      split <;> exact ⟨rfl, rfl, rfl⟩
  | endJob =>
      simp [applyAction, jobEnd, jobRelease, skipRest, Job.note]
  | _ => exact ⟨rfl, rfl, rfl⟩

theorem foldl_applyAction_frame (a : Answer) (res : Result) (actions : List Action) (job : Job) :
    (actions.foldl (applyAction a res) job).state = job.state ∧
      (actions.foldl (applyAction a res) job).spec = job.spec ∧
      (actions.foldl (applyAction a res) job).detail = job.detail := by
  induction actions generalizing job with
  | nil => exact ⟨rfl, rfl, rfl⟩
  | cons action actions ih =>
      obtain ⟨state, spec, detail⟩ := applyAction_frame a res job action
      obtain ⟨state', spec', detail'⟩ := ih (applyAction a res job action)
      exact ⟨state'.trans state, spec'.trans spec, detail'.trans detail⟩

/-! ## What a dispatch can do -/

/-- The job on which the actions of `res` run. -/
def acted (job : Job) (ev : Event) (res : Result) : Job :=
  if ev = .groupEmpty then stepFinish (enter job ev res) else enter job ev res

/-- Everything `dispatch_one` can do: drop a stale event, ignore, or make the
machine's move. -/
theorem dispatchOne_cases {a : Answer} {job job' : Job} {ev : Event} {pl : Payload}
    {evStep : Option Nat} (sent : dispatchOne a job ev pl evStep = some job') :
    (eventIsStale job.state ev evStep job.liveStep = true ∧ job' = job) ∨
    eventIsStale job.state ev evStep job.liveStep = false ∧
      ((react pl.coe (phase job.state) ev = .ignore ∧
          job' = acted job ev ⟨.ignore, job.state, .none, none, []⟩) ∨
        ∃ res : Result,
          react pl.coe (phase job.state) ev = .go (phase res.next) res.reasonKind res.actions ∧
          res.reason = reasonText res.reasonKind { pl with carried := job.lastReason } ∧
          job' = res.actions.foldl (applyAction a res) (acted job ev res)) := by
  unfold dispatchOne at sent
  split at sent
  · rename_i stale
    exact Or.inl ⟨stale, (Option.some.inj sent).symm⟩
  · rename_i fresh
    refine Or.inr ⟨by simpa using fresh, ?_⟩
    cases found : lookup job.state ev { pl with carried := job.lastReason } with
    | none => simp [found] at sent
    | some res =>
        rw [found] at sent
        have result := (Option.some.inj sent).symm
        rcases lookup_cases found with ⟨ignored, rfl⟩ | ⟨moves, _, reason⟩
        · exact Or.inl ⟨ignored, result⟩
        · exact Or.inr ⟨res, moves, reason, result⟩

theorem dispatchOne_ne_none {a : Answer} {job : Job} {ev : Event} {pl : Payload}
    {evStep : Option Nat}
    (possible : eventIsStale job.state ev evStep job.liveStep = false →
      react pl.coe (phase job.state) ev ≠ .impossible) :
    ∃ job', dispatchOne a job ev pl evStep = some job' := by
  unfold dispatchOne
  split
  · exact ⟨job, rfl⟩
  · rename_i fresh
    obtain ⟨res, found⟩ :=
      lookup_ne_none (p := { pl with carried := job.lastReason }) (possible (by simpa using fresh))
    rw [found]
    exact ⟨_, rfl⟩

@[simp] theorem acted_state (job : Job) (ev : Event) (res : Result) :
    (acted job ev res).state = res.next := by
  unfold acted
  split
  · rw [stepFinish_state]; rfl
  · rfl

theorem dispatchOne_spec {a : Answer} {job job' : Job} {ev : Event} {pl : Payload}
    {evStep : Option Nat} (sent : dispatchOne a job ev pl evStep = some job') :
    job'.spec = job.spec ∧ job'.detail = job.detail := by
  have kept : ∀ res, (acted job ev res).spec = job.spec ∧ (acted job ev res).detail = job.detail := by
    intro res
    unfold acted
    split
    · rw [stepFinish_spec, stepFinish_detail]
      exact ⟨rfl, rfl⟩
    · exact ⟨rfl, rfl⟩
  rcases dispatchOne_cases sent with ⟨_, rfl⟩ | ⟨_, ⟨_, rfl⟩ | ⟨res, _, _, rfl⟩⟩
  · exact ⟨rfl, rfl⟩
  · exact kept _
  · obtain ⟨_, spec, detail⟩ := foldl_applyAction_frame a res res.actions (acted job ev res)
    exact ⟨spec.trans (kept res).1, detail.trans (kept res).2⟩

section Dispatch
variable {a : Answer} {job job' : Job} {ev : Event} {pl : Payload} {evStep : Option Nat}

/-- A move of the machine, carried out by the actions. -/
theorem dispatchOne_go {next : Phase} {kind : ReasonKind} {actions : List Action}
    (sent : dispatchOne a job ev pl evStep = some job')
    (fresh : eventIsStale job.state ev evStep job.liveStep = false)
    (moves : react pl.coe (phase job.state) ev = .go next kind actions) :
    ∃ res : Result, phase res.next = next ∧
      res.reason = reasonText kind { pl with carried := job.lastReason } ∧
      job' = actions.foldl (applyAction a res) (acted job ev res) := by
  rcases dispatchOne_cases sent with ⟨stale, _⟩ | ⟨_, ⟨ignored, _⟩ | ⟨res, found, reason, result⟩⟩
  · rw [fresh] at stale
    contradiction
  · rw [moves] at ignored
    contradiction
  · rw [moves, Move.go.injEq] at found
    obtain ⟨rfl, rfl, rfl⟩ := found
    exact ⟨res, rfl, reason, result⟩

theorem dispatchOne_ignored (sent : dispatchOne a job ev pl evStep = some job')
    (fresh : eventIsStale job.state ev evStep job.liveStep = false)
    (ignored : react pl.coe (phase job.state) ev = .ignore) :
    job' = acted job ev ⟨.ignore, job.state, .none, none, []⟩ := by
  rcases dispatchOne_cases sent with ⟨stale, _⟩ | ⟨_, ⟨_, result⟩ | ⟨res, found, _, _⟩⟩
  · rw [fresh] at stale
    contradiction
  · exact result
  · rw [ignored] at found
    contradiction

theorem dispatchOne_possible (sent : dispatchOne a job ev pl evStep = some job')
    (fresh : eventIsStale job.state ev evStep job.liveStep = false) :
    react pl.coe (phase job.state) ev ≠ .impossible := by
  rcases dispatchOne_cases sent with ⟨stale, _⟩ | ⟨_, ⟨ignored, _⟩ | ⟨res, found, _, _⟩⟩
  · rw [fresh] at stale
    contradiction
  · simp [ignored]
  · simp [found]

/-- To fit after a move, fit the phase the move leads to. -/
theorem fits_of_go {next : Phase} {kind : ReasonKind} {actions : List Action}
    (sent : dispatchOne a job ev pl evStep = some job')
    (fresh : eventIsStale job.state ev evStep job.liveStep = false)
    (moves : react pl.coe (phase job.state) ev = .go next kind actions)
    (fits : ∀ res : Result,
      FitsAt next (actions.foldl (applyAction a res) (acted job ev res))) : Fits job' := by
  obtain ⟨res, reached, _, rfl⟩ := dispatchOne_go sent fresh moves
  have state := (foldl_applyAction_frame a res actions (acted job ev res)).1
  rw [acted_state] at state
  rw [Fits, state, reached]
  exact fits res

theorem fits_of_ignored (sent : dispatchOne a job ev pl evStep = some job')
    (fresh : eventIsStale job.state ev evStep job.liveStep = false)
    (ignored : react pl.coe (phase job.state) ev = .ignore)
    (fits : FitsAt (phase job.state) (acted job ev ⟨.ignore, job.state, .none, none, []⟩)) :
    Fits job' := by
  rw [dispatchOne_ignored sent fresh ignored, Fits, acted_state]
  exact fits

theorem over_jobEnd (idle : job.liveStep = none → job.procOk = false)
    (owed : job.followup = none) : Over (jobEnd job) := by
  unfold jobEnd
  cases live : job.liveStep with
  | none =>
      rw [stepFinish, live]
      exact ⟨live, idle live, rfl, owed⟩
  | some step =>
      rw [stepFinish, live]
      exact ⟨rfl, rfl, rfl, owed⟩

/-- A decided step settles, whichever signal its group was sent before. -/
theorem settling_of_actions (job : Job) (verdict : Verdict) (signal : Signal) (res : Result)
    (live : Live job) (owed : job.followup = none) (proc : job.procOk = true)
    (armed : job.graceTimer.armed = decide (signal ≠ .none))
    (fired : job.graceTimer.fired = signal.killed)
    (reaped : verdict = .goOn ∨ verdict = .fail → job.leaderReaped = true)
    (cancelTold : job.cancelTold = decide (verdict = .cancelRequested))
    (timeoutTold : verdict ≠ .cancelRequested →
      job.timeoutTold = decide (verdict = .cancelTimeout)) :
    Settling verdict signal.killed
      ((teardown signal ++ [Action.recordStep]).foldl (applyAction a res) job) := by
  cases signal <;>
    simp only [teardown, List.cons_append, List.nil_append, List.foldl_cons, List.foldl_nil,
      applyAction, recordStep, Job.note, Job.updateStep] <;>
    refine ⟨⟨live.live, live.inRange, by simpa using live.steps, live.timer⟩, owed, proc, ?_,
      fired, reaped, cancelTold, timeoutTold⟩
  · rfl
  · exact armed
  · exact armed

/-! ## Events that may reach any phase -/

theorem fits_cancel (fits : Fits job) (owed : job.followup = none)
    (sent : dispatchOne a job .cancel pl none = some job') : Fits job' := by
  rw [Fits] at fits
  cases at_ : phase job.state with
  | pending =>
      rw [at_] at fits
      refine fits_of_go sent rfl (by rw [at_]; rfl) fun res => ?_
      exact over_jobEnd (fun _ => fits.proc) owed
  | ready =>
      rw [at_] at fits
      refine fits_of_go sent rfl (by rw [at_]; rfl) fun res => ?_
      exact over_jobEnd (fun _ => fits.proc) owed
  | between =>
      rw [at_] at fits
      refine fits_of_go sent rfl (by rw [at_]; rfl) fun res => ?_
      exact over_jobEnd (fun _ => fits.proc) owed
  | undecided coe signal =>
      rw [at_] at fits
      have moves : react pl.coe (.undecided coe signal) .cancel =
          settle signal .cancelRequested .cancelRequested := by
        cases signal <;> rfl
      refine fits_of_go sent rfl (by rw [at_]; exact moves) fun res => ?_
      rcases fits.forked with ⟨owes, _⟩ | forked
      · rw [owed] at owes
        contradiction
      · exact settling_of_actions (enter job .cancel res) .cancelRequested signal res
          ⟨fits.live, fits.inRange, fits.steps, fits.timer⟩ owed forked.proc forked.armed
          forked.fired (by simp) (by simp [enter]) (by simp)
  | settling verdict killed =>
      rw [at_] at fits
      have live : ∀ res, Live (enter job .cancel res) :=
        fun res => ⟨fits.live, fits.inRange, fits.steps, fits.timer⟩
      by_cases again : verdict = .cancelRequested
      · subst again
        refine fits_of_ignored sent rfl (by rw [at_]; rfl) ?_
        rw [at_]
        exact ⟨live _, owed, fits.proc, fits.armed, fits.fired, by simp, by simp [acted, enter],
          by simp⟩
      · have moves : react pl.coe (.settling verdict killed) .cancel =
            .go (.settling .cancelRequested killed) .cancelRequested [] := by
          cases verdict <;> first | rfl | contradiction
        refine fits_of_go sent rfl (by rw [at_]; exact moves) fun res => ?_
        exact ⟨live res, owed, fits.proc, fits.armed, fits.fired, by simp, by simp [acted, enter],
          by simp⟩
  | final outcome =>
      rw [at_] at fits
      refine fits_of_ignored sent rfl (by rw [at_]; rfl) ?_
      rw [at_]
      exact ⟨fits.live, fits.proc, fits.timer, owed⟩

theorem fits_jobTimeout (fits : Fits job) (owed : job.followup = none)
    (sent : dispatchOne a job .jobTimeout pl none = some job') : Fits job' := by
  by_cases ended : job.state.isFinal = true
  · rcases dispatchOne_cases sent with ⟨_, rfl⟩ | ⟨fresh, _⟩
    · exact fits
    · simp [eventIsStale, ended] at fresh
  have fresh : eventIsStale job.state .jobTimeout none job.liveStep = false := by
    simpa [eventIsStale] using ended
  have possible := dispatchOne_possible sent fresh
  rw [Fits] at fits
  cases at_ : phase job.state with
  | pending => exact absurd (by rw [at_]; rfl) possible
  | ready => exact absurd (by rw [at_]; rfl) possible
  | between =>
      rw [at_] at fits
      refine fits_of_go sent fresh (by rw [at_]; rfl) fun res => ?_
      exact over_jobEnd (fun _ => fits.proc) owed
  | undecided coe signal =>
      rw [at_] at fits
      have moves : react pl.coe (.undecided coe signal) .jobTimeout =
          settle signal .cancelTimeout .timeout := by
        cases signal <;> rfl
      refine fits_of_go sent fresh (by rw [at_]; exact moves) fun res => ?_
      rcases fits.forked with ⟨owes, _⟩ | forked
      · rw [owed] at owes
        contradiction
      · exact settling_of_actions (enter job .jobTimeout res) .cancelTimeout signal res
          ⟨fits.live, fits.inRange, fits.steps, fits.timer⟩ owed forked.proc forked.armed
          forked.fired (by simp) (by simp [enter, fits.cancelTold]) (by simp [enter])
  | settling verdict killed =>
      rw [at_] at fits
      have live : ∀ res, Live (enter job .jobTimeout res) :=
        fun res => ⟨fits.live, fits.inRange, fits.steps, fits.timer⟩
      cases verdict with
      | cancelTimeout => exact absurd (by rw [at_]; rfl) possible
      | cancelRequested =>
          refine fits_of_ignored sent fresh (by rw [at_]; rfl) ?_
          rw [at_]
          exact ⟨live _, owed, fits.proc, fits.armed, fits.fired, by simp,
            by simp [acted, enter, fits.cancelTold], by simp⟩
      | goOn =>
          refine fits_of_go sent fresh (by rw [at_]; rfl) fun res => ?_
          exact ⟨live res, owed, fits.proc, fits.armed, fits.fired, by simp,
            by simp [acted, enter, fits.cancelTold], by simp [acted, enter]⟩
      | fail =>
          refine fits_of_go sent fresh (by rw [at_]; rfl) fun res => ?_
          exact ⟨live res, owed, fits.proc, fits.armed, fits.fired, by simp,
            by simp [acted, enter, fits.cancelTold], by simp [acted, enter]⟩
  | final outcome =>
      exact absurd ((isFinal_iff job.state).mpr ⟨outcome, at_⟩) ended

/-! ## Events of one phase -/

theorem fits_skipped (fits : Waiting job) {next : Outcome} {kind : ReasonKind}
    (fresh : eventIsStale job.state ev evStep job.liveStep = false) (sole : ev ≠ .groupEmpty)
    (moves : react pl.coe (phase job.state) ev = .go (.final next) kind [.recordJob, .endJob])
    (sent : dispatchOne a job ev pl evStep = some job') : Fits job' := by
  refine fits_of_go sent fresh moves fun res => ?_
  rw [acted, if_neg sole]
  exact over_jobEnd (fun _ => fits.proc) fits.followup

theorem fits_needsMet (fits : Fits job)
    (sent : dispatchOne a job .needsMet pl none = some job') : Fits job' := by
  have at_ := phase_of_needsMet (dispatchOne_possible sent rfl)
  rw [Fits, at_] at fits
  refine fits_of_go sent rfl (by rw [at_]; rfl) fun res => ?_
  exact ⟨fits.live, fits.proc, fits.cur, fits.steps, fits.timer, fits.followup,
    by simp [acted, enter, fits.cancelTold], by simp [acted, enter, fits.timeoutTold]⟩

theorem fits_needsFailed (fits : Fits job)
    (sent : dispatchOne a job .needsFailed pl none = some job') : Fits job' := by
  have at_ := phase_of_needsFailed (dispatchOne_possible sent rfl)
  rw [Fits, at_] at fits
  exact fits_skipped fits rfl (by simp) (by rw [at_]; rfl) sent

theorem fits_skip (fits : Fits job)
    (sent : dispatchOne a job .skip pl none = some job') : Fits job' := by
  rw [Fits] at fits
  rcases phase_of_skip (dispatchOne_possible sent rfl) with at_ | at_
  · rw [at_] at fits
    exact fits_skipped fits rfl (by simp) (by rw [at_]; rfl) sent
  · rw [at_] at fits
    exact fits_skipped fits rfl (by simp) (by rw [at_]; rfl) sent

theorem fits_slotGranted (fits : Fits job)
    (sent : dispatchOne a job .slotGranted pl none = some job') : Fits job' := by
  have at_ := phase_of_slotGranted (dispatchOne_possible sent rfl)
  rw [Fits, at_] at fits
  refine fits_of_go sent rfl (by rw [at_]; rfl) fun res => ?_
  simp only [acted, enter, List.foldl_cons, List.foldl_nil, applyAction, jobStart]
  cases a.start with
  | some failure =>
      exact ⟨fits.live, fits.proc, by simp [Job.note, oweStartFailed, jobRelease, fits.cancelTold],
        by simp [Job.note, oweStartFailed, jobRelease, fits.timeoutTold],
        by simp [Job.note, oweStartFailed, jobRelease, fits.cur], Or.inl ⟨rfl, fits.steps, rfl⟩⟩
  | none =>
      exact ⟨fits.live, fits.proc, by simp [Job.note, fits.cancelTold],
        by simp [Job.note, fits.timeoutTold], by simp [Job.note, fits.cur],
        Or.inr ⟨fits.followup, rfl, rfl⟩⟩

theorem fits_noMoreSteps (fits : Fits job) (owed : job.followup = none)
    (sent : dispatchOne a job .noMoreSteps pl none = some job') : Fits job' := by
  have at_ := phase_of_noMoreSteps (dispatchOne_possible sent rfl)
  rw [Fits, at_] at fits
  refine fits_of_go sent rfl (by rw [at_]; rfl) fun res => ?_
  exact over_jobEnd (fun _ => fits.proc) owed

theorem fits_nextStep (fits : Fits job) (owed : job.followup = none) {step : StepSpec}
    (here : job.spec.steps[job.cur]? = some step) (coe : pl.coe = step.continueOnError)
    (sent : dispatchOne a job .nextStep pl none = some job') : Fits job' := by
  have at_ := phase_of_nextStep (dispatchOne_possible sent rfl)
  rw [Fits, at_] at fits
  obtain ⟨owes, _⟩ | ⟨_, steps, timer⟩ := fits.opened
  · rw [owed] at owes
    contradiction
  have inRange : job.cur < job.spec.steps.length := (List.getElem?_eq_some_iff.mp here).1
  refine fits_of_go sent rfl (by rw [at_]; rfl) fun res => ?_
  simp only [acted, enter, List.foldl_cons, List.foldl_nil, applyAction, stepSpawn]
  cases a.spawn with
  | refused op errno =>
      refine ⟨⟨rfl, inRange, by simpa [Job.note, Job.updateStep, oweStartFailed] using steps, timer⟩,
        ?_, ?_, ?_, Or.inl ⟨rfl, fits.proc, rfl⟩⟩
      · simp [Job.note, Job.updateStep, oweStartFailed, fits.cancelTold]
      · simp [Job.note, Job.updateStep, oweStartFailed, fits.timeoutTold]
      · simp [Job.note, Job.updateStep, oweStartFailed, here, coe]
  | forked pid unreachable =>
      refine ⟨⟨rfl, inRange, by simpa [Job.note, Job.updateStep] using steps, timer⟩, ?_, ?_, ?_,
        Or.inr ⟨owed, rfl, rfl, rfl, rfl, by simp⟩⟩
      · simp [Job.note, Job.updateStep, fits.cancelTold]
      · simp [Job.note, Job.updateStep, fits.timeoutTold]
      · simp [Job.note, Job.updateStep, here, coe]

/-- What is owed to a job is start-failed: of the job itself, or of its live step. -/
theorem startFailed_of_owed (fits : Fits job) (owes : job.followup = some ev) :
    ev = .startFailed ∧
      ((phase job.state = .between ∧ BetweenSteps job ∧ job.steps = none) ∨
        ∃ coe, phase job.state = .undecided coe .none ∧ Undecided coe .none job ∧
          job.procOk = false) := by
  rw [Fits] at fits
  cases at_ : phase job.state with
  | between =>
      rw [at_] at fits
      have between : BetweenSteps job := fits
      obtain ⟨owed, closed, _⟩ | ⟨owed, _⟩ := between.opened
      · rw [owes, Option.some.injEq] at owed
        exact ⟨owed, .inl ⟨rfl, between, closed⟩⟩
      · rw [owes] at owed
        contradiction
  | undecided coe signal =>
      rw [at_] at fits
      have undecided : Undecided coe signal job := fits
      obtain ⟨owed, proc, rfl⟩ | forked := undecided.forked
      · rw [owes, Option.some.injEq] at owed
        exact ⟨owed, .inr ⟨coe, rfl, undecided, proc⟩⟩
      · exact absurd forked.followup (by simp [owes])
  | pending => rw [at_] at fits; exact absurd fits.followup (by simp [owes])
  | ready => rw [at_] at fits; exact absurd fits.followup (by simp [owes])
  | settling verdict killed => rw [at_] at fits; exact absurd fits.followup (by simp [owes])
  | final outcome => rw [at_] at fits; exact absurd fits.followup (by simp [owes])

/-- The start-failed that an action left behind. -/
theorem fits_startFailed (fits : Fits job) (owes : job.followup = some ev)
    (sent : dispatchOne a { job with followup := none } ev pl none = some job') : Fits job' := by
  obtain ⟨rfl, ⟨at_, between, _⟩ | ⟨coe, at_, _, proc⟩⟩ := startFailed_of_owed fits owes
  · refine fits_of_go sent rfl (by rw [at_]; rfl) fun res => ?_
    exact over_jobEnd (fun _ => between.proc) rfl
  · refine fits_of_go sent rfl (by rw [at_]; rfl) fun res => ?_
    exact over_jobEnd (fun _ => proc) rfl

/-- A leader's exit, seen once per step. -/
theorem fits_leaderExit (fits : Fits job) (owed : job.followup = none)
    (live : job.liveStep.isSome = true) (proc : job.procOk = true) {changed : Bool}
    (exits : ev = .leaderExitOk ∨ ev = .leaderExitFail)
    (sent : dispatchOne a (job.reapLeader changed) ev pl job.liveStep = some job') :
    Fits job' := by
  have fresh : eventIsStale job.state ev job.liveStep job.liveStep = false := by
    rcases exits with rfl | rfl <;> simp [eventIsStale]
  have sole : ev ≠ .groupEmpty := by rcases exits with rfl | rfl <;> simp
  have untold : (ev == .cancel) = false ∧ (ev == .jobTimeout) = false := by
    rcases exits with rfl | rfl <;> exact ⟨rfl, rfl⟩
  rw [Fits] at fits
  cases at_ : phase job.state with
  | undecided coe signal =>
      rw [at_] at fits
      obtain ⟨verdict, kind, moves, decides⟩ := react_leaderExit pl.coe coe signal exits
      rw [← at_] at moves
      refine fits_of_go sent fresh moves fun res => ?_
      rcases fits.forked with ⟨owes, _⟩ | forked
      · rw [owed] at owes
        contradiction
      · rw [acted, if_neg sole]
        refine settling_of_actions (enter _ ev res) verdict signal res
          ⟨fits.live, fits.inRange, fits.steps, fits.timer⟩ owed proc forked.armed
          forked.fired (fun _ => rfl) ?_ ?_
        · rcases decides with rfl | rfl <;> simp [enter, Job.note, Job.reapLeader, fits.cancelTold, untold.1]
        · rcases decides with rfl | rfl <;> simp [enter, Job.note, Job.reapLeader, fits.timeoutTold, untold.2]
  | settling verdict killed =>
      rw [at_] at fits
      have ignored : react pl.coe (phase job.state) ev = .ignore := by
        rcases exits with rfl | rfl <;> rw [at_] <;> rfl
      refine fits_of_ignored sent fresh ignored ?_
      rw [acted, if_neg sole, reapLeader_state, at_]
      refine ⟨⟨fits.live, fits.inRange, fits.steps, fits.timer⟩, owed, proc, fits.armed, fits.fired,
        fun _ => rfl, ?_, ?_⟩
      · simp [enter, Job.note, Job.reapLeader, fits.cancelTold, untold.1]
      · intro other
        simp [enter, Job.note, Job.reapLeader, fits.timeoutTold other, untold.2]
  | pending => rw [at_] at fits; simp [fits.live] at live
  | ready => rw [at_] at fits; simp [fits.live] at live
  | between => rw [at_] at fits; simp [fits.live] at live
  | final outcome => rw [at_] at fits; simp [fits.live] at live

/-- The last process of the group is gone: the step is over. -/
theorem fits_groupEmpty (fits : Fits job) (owed : job.followup = none) (entry : Note)
    (sent : dispatchOne a (job.note entry) .groupEmpty pl job.liveStep = some job') :
    Fits job' := by
  have fresh : eventIsStale (job.note entry).state .groupEmpty job.liveStep
      (job.note entry).liveStep = false := by
    simp [eventIsStale, Job.note]
  obtain ⟨verdict, killed, at_⟩ := phase_of_groupEmpty (dispatchOne_possible sent fresh)
  rw [note_state] at at_
  rw [Fits, at_] at fits
  have moves : react pl.coe (phase (job.note entry).state) .groupEmpty = settled verdict := by
    rw [note_state, at_]
    cases verdict <;> rfl
  cases verdict with
  | goOn =>
      refine fits_of_go sent fresh moves fun res => ?_
      rw [acted, if_pos rfl, stepFinish]
      simp only [enter, Job.note, fits.live]
      exact ⟨rfl, rfl, by simp [fits.cancelTold], by simp [fits.timeoutTold], fits.inRange,
        Or.inr ⟨owed, fits.steps, fits.timer⟩⟩
  | fail =>
      refine fits_of_go sent fresh moves fun res => ?_
      rw [acted, if_pos rfl, stepFinish]
      simp only [enter, Job.note, fits.live]
      exact over_jobEnd (fun _ => rfl) owed
  | cancelTimeout =>
      refine fits_of_go sent fresh moves fun res => ?_
      rw [acted, if_pos rfl, stepFinish]
      simp only [enter, Job.note, fits.live]
      exact over_jobEnd (fun _ => rfl) owed
  | cancelRequested =>
      refine fits_of_go sent fresh moves fun res => ?_
      rw [acted, if_pos rfl, stepFinish]
      simp only [enter, Job.note, fits.live]
      exact over_jobEnd (fun _ => rfl) owed

/-- A live step that owes nothing was forked. -/
theorem forked_of_fits {coe : Bool} {signal : Signal} (fits : Fits job)
    (owed : job.followup = none) (at_ : phase job.state = .undecided coe signal) :
    Forked signal job := by
  rw [Fits, at_] at fits
  rcases fits.forked with ⟨owes, _⟩ | forked
  · rw [owed] at owes
    contradiction
  · exact forked

/-- A step's timer event that comes too late is dropped. -/
theorem dispatchOne_late (fits : Fits job) (owed : job.followup = none)
    (timed : ev = .stepTimeout ∨ ev = .graceExpired)
    (late : (evStep == job.liveStep && job.procOk) = false)
    (sent : dispatchOne a job ev pl evStep = some job') : job' = job := by
  rcases dispatchOne_cases sent with ⟨_, same⟩ | ⟨fresh, _⟩
  · exact same
  have here : evStep = job.liveStep := by
    rcases timed with rfl | rfl <;> simpa [eventIsStale] using fresh
  have unforked : job.procOk = false := by simpa [here] using late
  have possible := dispatchOne_possible sent fresh
  have live : (∃ flag signal, phase job.state = .undecided flag signal) ∨
      ∃ verdict killed, phase job.state = .settling verdict killed := by
    rcases timed with rfl | rfl
    · rcases phase_of_stepTimeout possible with ⟨flag, at_⟩ | settling
      · exact Or.inl ⟨flag, _, at_⟩
      · exact Or.inr settling
    · rcases phase_of_graceExpired possible with ⟨flag, at_⟩ | ⟨verdict, at_⟩
      · exact Or.inl ⟨flag, _, at_⟩
      · exact Or.inr ⟨verdict, _, at_⟩
  rcases live with ⟨flag, signal, at_⟩ | ⟨verdict, killed, at_⟩
  · have proc := (forked_of_fits fits owed at_).proc
    rw [unforked] at proc
    contradiction
  · rw [Fits, at_] at fits
    have proc := fits.proc
    rw [unforked] at proc
    contradiction

theorem fits_stepTimeout (fits : Fits job) (owed : job.followup = none) {readable : Bool}
    (fired : (job.readStepTimer readable).stepTimer.fired = true)
    (sent : dispatchOne a (job.readStepTimer readable) .stepTimeout pl job.liveStep = some job') :
    Fits job' := by
  have fresh : eventIsStale job.state .stepTimeout job.liveStep job.liveStep = false := by
    simp [eventIsStale]
  rcases phase_of_stepTimeout (dispatchOne_possible sent fresh) with
    ⟨flag, at_⟩ | ⟨verdict, killed, at_⟩
  · have at_ : phase job.state = .undecided flag .none := at_
    have forked := forked_of_fits fits owed at_
    rw [Fits, at_] at fits
    refine fits_of_go sent fresh (by rw [readStepTimer_state, at_]; rfl) fun res => ?_
    simp only [acted, enter, teardown, List.foldl_cons, List.foldl_nil, applyAction, Job.note,
      Job.readStepTimer, reduceCtorEq, if_false]
    exact ⟨⟨fits.live, fits.inRange, fits.steps, fits.timer⟩, by simp [fits.cancelTold],
      by simp [fits.timeoutTold], fits.coe,
      Or.inr ⟨owed, forked.proc, forked.reaped, rfl, forked.fired, fun _ => fired⟩⟩
  · have at_ : phase job.state = .settling verdict killed := at_
    rw [Fits, at_] at fits
    refine fits_of_ignored sent fresh (by rw [readStepTimer_state, at_]; rfl) ?_
    simp only [at_, acted, enter, Job.note, Job.readStepTimer, reduceCtorEq,
      if_false]
    exact ⟨⟨fits.live, fits.inRange, fits.steps, fits.timer⟩, owed, fits.proc, fits.armed,
      fits.fired, fits.reaped, by simp [fits.cancelTold],
      fun other => by simp [fits.timeoutTold other]⟩

theorem fits_graceExpired (fits : Fits job) (owed : job.followup = none) {readable : Bool}
    (fired : (job.readGraceTimer readable).graceTimer.fired = true) (entry : Note)
    (sent : dispatchOne a ((job.readGraceTimer readable).note entry) .graceExpired pl
      job.liveStep = some job') :
    Fits job' := by
  have fresh : eventIsStale job.state .graceExpired job.liveStep job.liveStep = false := by
    simp [eventIsStale]
  rcases phase_of_graceExpired (dispatchOne_possible sent fresh) with ⟨flag, at_⟩ | ⟨verdict, at_⟩
  · have at_ : phase job.state = .undecided flag .term := at_
    have forked := forked_of_fits fits owed at_
    rw [Fits, at_] at fits
    refine fits_of_go sent fresh (by rw [note_state, readGraceTimer_state, at_]; rfl) fun res => ?_
    simp only [acted, enter, List.foldl_cons, List.foldl_nil, applyAction, Job.note,
      Job.readGraceTimer, reduceCtorEq, if_false]
    exact ⟨⟨fits.live, fits.inRange, fits.steps, fits.timer⟩, by simp [fits.cancelTold],
      by simp [fits.timeoutTold], fits.coe,
      Or.inr ⟨owed, forked.proc, forked.reaped, forked.armed, fired,
        fun _ => forked.timedOut (by simp)⟩⟩
  · have at_ : phase job.state = .settling verdict false := at_
    rw [Fits, at_] at fits
    have moves : react pl.coe (phase job.state) .graceExpired =
        .go (.settling verdict true) .none [.sigkillGroup] := by
      rw [at_]
      cases verdict <;> rfl
    refine fits_of_go sent fresh moves fun res => ?_
    simp only [acted, enter, List.foldl_cons, List.foldl_nil, applyAction, Job.note,
      Job.readGraceTimer, reduceCtorEq, if_false]
    exact ⟨⟨fits.live, fits.inRange, fits.steps, fits.timer⟩, owed, fits.proc, fits.armed,
      fired, fits.reaped, by simp [fits.cancelTold],
      fun other => by simp [fits.timeoutTold other]⟩

end Dispatch

end Qwe.Kernel
