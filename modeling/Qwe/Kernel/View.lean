import Qwe.Kernel.Sound
import Mathlib.Logic.Relation

/-!
# A job's career

What the laws about a job's history speak of: its state, the cursor, the step
records, the reasons and the notes.  `Step` is the abstract job: which careers
are possible at all, with no event loop, no descriptors and no answers.  Every
step of the kernel moves each job along such steps, so a law proved of all
careers holds of every job in every run.
-/

set_option autoImplicit false

namespace Qwe.Kernel

open Qwe.Lifecycle Qwe.Sched Relation

structure View where
  state : State
  cur : Nat
  results : Option (List StepResult)
  reason : Option Reason
  /-- the last reason a transition had -/
  carried : Option Reason
  /-- the live step's process was forked -/
  forked : Bool
  reaped : Bool
  notes : List Note

def Job.view (job : Job) : View where
  state := job.state
  cur := job.cur
  results := job.steps
  reason := job.reason
  carried := job.lastReason
  forked := job.procOk
  reaped := job.leaderReaped
  notes := job.notes

/-- The record written for a decided step. -/
def record (outcome : Outcome) (why : Option Reason) (changed : Bool) (r : StepResult) :
    StepResult :=
  { r with outcome := some outcome, reason := why, changed := changed }

/-- The records from `k` on are skipped. -/
def skipFrom (spec : JobSpec) (k : Nat) (results : List StepResult) : List StepResult :=
  results.mapIdx fun i r =>
    if k ≤ i then { describeStep spec.steps[i]? r with outcome := some .skipped } else r

/-- What is noted when a group's teardown begins. -/
def tornDown : Signal → Nat → List Note
  | .none, step => [.graceArmed (some step), .sigterm (some step)]
  | _, _ => []

/-- The outcome `record_step` writes. -/
def decidedOutcome : Verdict → Option Reason → Outcome
  | .cancelTimeout, _ => .cancelled
  | .cancelRequested, _ => .cancelled
  | _, some _ => .failed
  | _, none => .success

/-- How an undecided step is decided. -/
inductive Decides (coe : Bool) : Signal → Event → Verdict → Option Reason → Prop where
  | succeeded : Decides coe .none .leaderExitOk .goOn none
  | failed (why : Reason) : Decides coe .none .leaderExitFail (onFailure coe) (some why)
  | late (sent : Signal) (ev : Event) (signalled : sent ≠ .none)
      (exits : ev = .leaderExitOk ∨ ev = .leaderExitFail) :
      Decides coe sent ev (onFailure coe) (some .timeout)
  | timeout (sent : Signal) : Decides coe sent .jobTimeout .cancelTimeout (some .timeout)
  | cancel (sent : Signal) : Decides coe sent .cancel .cancelRequested (some .cancelRequested)

/-- How a decided step's verdict is overruled. -/
inductive Overrules : Verdict → Event → Verdict → Reason → Prop where
  | timeout (verdict : Verdict) (open_ : verdict = .goOn ∨ verdict = .fail) :
      Overrules verdict .jobTimeout .cancelTimeout .timeout
  | cancel (verdict : Verdict) (open_ : verdict ≠ .cancelRequested) :
      Overrules verdict .cancel .cancelRequested .cancelRequested

/-- How a job ends with its last step. -/
inductive Closes (carried : Option Reason) : Verdict → State → Option Reason → Prop where
  | fail : Closes carried .fail .failed carried
  | timeout : Closes carried .cancelTimeout .cancelled (some .timeout)
  | cancel : Closes carried .cancelRequested .cancelled (some .cancelRequested)

/-- How a job ends between two steps. -/
inductive Stops (spec : JobSpec) (cur : Nat) : Event → State → Option Reason → Prop where
  | done (past : spec.steps[cur]? = none) : Stops spec cur .noMoreSteps .success none
  | timeout : Stops spec cur .jobTimeout .cancelled (some .timeout)
  | cancel : Stops spec cur .cancel .cancelled (some .cancelRequested)

/-- How a waiting job is skipped. -/
inductive Skips : Event → Reason → Prop where
  | needs : Skips .needsFailed .dependencyFailed
  | cancel : Skips .cancel .cancelRequested
  | disabled : Skips .skip .targetDisabled

theorem Closes.final {carried : Option Reason} {verdict : Verdict} {last : State}
    {why : Option Reason} (closes : Closes carried verdict last why) :
    ∃ outcome, phase last = .final outcome := by
  cases closes <;> exact ⟨_, rfl⟩

theorem Stops.final {spec : JobSpec} {cur : Nat} {ev : Event} {last : State} {why : Option Reason}
    (stops : Stops spec cur ev last why) : ∃ outcome, phase last = .final outcome := by
  cases stops <;> exact ⟨_, rfl⟩

inductive Step (spec : JobSpec) : View → View → Prop where
  | ignored (v : View) (coe : Bool) (ev : Event) (live : Option Nat)
      (still : react coe (phase v.state) ev = .ignore) :
      Step spec v { v with notes := .told ev live v.state v.state :: v.notes }
  | reaped (v : View) (forked : v.forked = true) :
      Step spec v { v with reaped := true, notes := .leaderReaped (some v.cur) :: v.notes }
  | needsMet (v : View) (at_ : phase v.state = .pending) :
      Step spec v { v with
        state := .ready, notes := .told .needsMet none v.state .ready :: v.notes }
  | skipped (v : View) (ev : Event) (why : Reason)
      (at_ : phase v.state = .pending ∨ phase v.state = .ready) (skips : Skips ev why) :
      Step spec v { v with
        state := .skipped, reason := some why, carried := some why
        results := v.results.map (skipFrom spec v.cur)
        notes := .ended :: .told ev none v.state .skipped :: v.notes }
  | started (v : View) (ok : Bool) (at_ : phase v.state = .ready) :
      Step spec v { v with
        state := .betweenSteps
        results := if ok then some (spec.steps.map fun _ => StepResult.empty) else v.results
        notes := .started ok :: .told .slotGranted none v.state .betweenSteps :: v.notes }
  | notStarted (v : View) (at_ : phase v.state = .between) (closed : v.results = none) :
      Step spec v { v with
        state := .failed, reason := some .engineError, carried := some .engineError
        results := v.results.map (skipFrom spec v.cur)
        notes := .ended :: .told .startFailed none v.state .failed :: v.notes }
  | stopped (v : View) (ev : Event) (last : State) (why : Option Reason)
      (at_ : phase v.state = .between) (opened : v.results.isSome = true)
      (stops : Stops spec v.cur ev last why) :
      Step spec v { v with
        state := last, reason := why, carried := why.or v.carried
        results := v.results.map (skipFrom spec v.cur)
        notes := .ended :: .told ev none v.state last :: v.notes }
  | spawned (v : View) (step : StepSpec) (next : State) (ok : Bool)
      (at_ : phase v.state = .between) (opened : v.results.isSome = true)
      (here : spec.steps[v.cur]? = some step)
      (reached : phase next = .undecided step.continueOnError .none) :
      Step spec v { v with
        state := next, forked := ok, reaped := false
        results := v.results.map fun rs => rs.modify v.cur (describeStep (some step))
        notes := .spawned v.cur ok :: .told .nextStep none v.state next :: v.notes }
  | notSpawned (v : View) (coe changed : Bool) (at_ : phase v.state = .undecided coe .none)
      (unforked : v.forked = false) :
      Step spec v { v with
        state := .failed, cur := v.cur + 1
        reason := some .engineError, carried := some .engineError
        results := v.results.map fun rs =>
          skipFrom spec (v.cur + 1) (rs.modify v.cur (record .failed (some .engineError) changed))
        notes := .ended :: .finished v.cur :: .recorded v.cur ::
          .told .startFailed (some v.cur) v.state .failed :: v.notes }
  | timedOut (v : View) (coe : Bool) (next : State) (at_ : phase v.state = .undecided coe .none)
      (forked : v.forked = true) (reached : phase next = .undecided coe .term) :
      Step spec v { v with
        state := next, carried := some .timeout
        notes := .graceArmed (some v.cur) :: .sigterm (some v.cur) ::
          .told .stepTimeout (some v.cur) v.state next :: v.notes }
  | killed (v : View) (next : State) (forked : v.forked = true)
      (moves : (∃ coe, phase v.state = .undecided coe .term ∧ phase next = .undecided coe .kill) ∨
        ∃ verdict, phase v.state = .settling verdict false ∧ phase next = .settling verdict true) :
      Step spec v { v with
        state := next
        notes := .sigkill (some v.cur) :: .told .graceExpired (some v.cur) v.state next ::
          .graceSeen (some v.cur) :: v.notes }
  | decided (v : View) (coe : Bool) (sent : Signal) (ev : Event) (verdict : Verdict)
      (why : Option Reason) (changed : Bool) (next : State)
      (at_ : phase v.state = .undecided coe sent) (forked : v.forked = true)
      (reaped : ev = .leaderExitOk ∨ ev = .leaderExitFail → v.reaped = true)
      (decides : Decides coe sent ev verdict why)
      (reached : phase next = .settling verdict sent.killed) :
      Step spec v { v with
        state := next, carried := why.or v.carried
        results := v.results.map fun rs =>
          rs.modify v.cur (record (decidedOutcome verdict why) why changed)
        notes := .recorded v.cur ::
          (tornDown sent v.cur ++ .told ev (some v.cur) v.state next :: v.notes) }
  | overruled (v : View) (verdict verdict' : Verdict) (killed : Bool) (ev : Event) (why : Reason)
      (next : State) (at_ : phase v.state = .settling verdict killed)
      (overrules : Overrules verdict ev verdict' why)
      (reached : phase next = .settling verdict' killed) :
      Step spec v { v with
        state := next, carried := some why
        notes := .told ev (some v.cur) v.state next :: v.notes }
  | movedOn (v : View) (killed : Bool) (at_ : phase v.state = .settling .goOn killed)
      (forked : v.forked = true) (reaped : v.reaped = true) :
      Step spec v { v with
        state := .betweenSteps, cur := v.cur + 1, forked := false
        notes := .finished v.cur :: .told .groupEmpty (some v.cur) v.state .betweenSteps ::
          .groupSeenEmpty (some v.cur) :: v.notes }
  | closed (v : View) (verdict : Verdict) (killed : Bool) (last : State) (why : Option Reason)
      (at_ : phase v.state = .settling verdict killed) (forked : v.forked = true)
      (reaped : v.reaped = true) (closes : Closes v.carried verdict last why) :
      Step spec v { v with
        state := last, cur := v.cur + 1, forked := false
        reason := why, carried := why.or v.carried
        results := v.results.map (skipFrom spec (v.cur + 1))
        notes := .ended :: .finished v.cur :: .told .groupEmpty (some v.cur) v.state last ::
          .groupSeenEmpty (some v.cur) :: v.notes }

theorem stepOutcome_settling {res : Result} {verdict : Verdict} {killed : Bool}
    (reached : phase res.next = .settling verdict killed) :
    stepOutcome res = decidedOutcome verdict res.reason := by
  obtain ⟨kind, next, reasonKind, reason, actions⟩ := res
  cases next <;> cases reached <;> cases reason <;> rfl

theorem stepOutcome_failed {res : Result} {why : Reason} (next : res.next = .failed)
    (reason : res.reason = some why) : stepOutcome res = .failed := by
  obtain ⟨kind, next, reasonKind, reason, actions⟩ := res
  cases next
  cases reason
  rfl

/-- A job's career so far and further on. -/
def Career (spec : JobSpec) : View → View → Prop := ReflTransGen (Step spec)

theorem Step.career {spec : JobSpec} {v v' : View} (step : Step spec v v') : Career spec v v' :=
  .single step

/-! ## The kernel's jobs have such careers -/

section Dispatch
variable {a : Answer} {job job' : Job} {ev : Event} {pl : Payload} {evStep : Option Nat}

theorem view_enter (res : Result) :
    (enter job ev res).view = { job.view with
      state := res.next, carried := res.reason.or job.lastReason
      notes := .told ev job.liveStep job.state res.next :: job.notes } := rfl

theorem view_stepFinish (job : Job) (live : job.liveStep = some job.cur) :
    (stepFinish job).view = { job.view with
      cur := job.view.cur + 1, forked := false
      notes := .finished job.view.cur :: job.view.notes } := by
  rw [stepFinish, live]
  rfl

theorem stepFinish_live : (stepFinish job).liveStep = none := by
  unfold stepFinish
  split
  · assumption
  · rfl

theorem view_recordStep (res : Result) (job : Job) :
    (recordStep res job).view = { job.view with
      results := job.view.results.map fun rs =>
        rs.modify job.view.cur (record (stepOutcome res) res.reason job.stepChanged)
      notes := .recorded job.view.cur :: job.view.notes } := rfl

theorem view_end_idle (a : Answer) (job : Job) (res : Result) (idle : job.liveStep = none) :
    ([Action.recordJob, .endJob].foldl (applyAction a res) job).view = { job.view with
      reason := res.reason
      results := job.view.results.map (skipFrom job.spec job.view.cur)
      notes := .ended :: job.view.notes } := by
  simp only [List.foldl_cons, List.foldl_nil, applyAction, jobEnd, stepFinish, idle]
  rfl

theorem view_end_live (a : Answer) (job : Job) (res : Result) (live : job.liveStep = some job.cur) :
    ([Action.recordJob, .endJob].foldl (applyAction a res) job).view = { job.view with
      cur := job.view.cur + 1, forked := false, reason := res.reason
      results := job.view.results.map (skipFrom job.spec (job.view.cur + 1))
      notes := .ended :: .finished job.view.cur :: job.view.notes } := by
  simp only [List.foldl_cons, List.foldl_nil, applyAction, jobEnd, stepFinish, live]
  rfl

/-- An ignored event is noted and nothing else. -/
theorem career_ignored (sent : dispatchOne a job ev pl evStep = some job')
    (fresh : eventIsStale job.state ev evStep job.liveStep = false) (sole : ev ≠ .groupEmpty)
    (ignored : react pl.coe (phase job.state) ev = .ignore) :
    Career job.spec job.view job'.view := by
  rw [dispatchOne_ignored sent fresh ignored, acted, if_neg sole]
  exact (Step.ignored job.view pl.coe ev job.liveStep ignored).career

theorem career_skipped (idle : job.liveStep = none) {why : Reason} {kind : ReasonKind}
    (fresh : eventIsStale job.state ev evStep job.liveStep = false) (sole : ev ≠ .groupEmpty)
    (moves : react pl.coe (phase job.state) ev = .go (.final .skipped) kind [.recordJob, .endJob])
    (text : reasonText kind { pl with carried := job.lastReason } = some why)
    (skips : Skips ev why) (at_ : phase job.state = .pending ∨ phase job.state = .ready)
    (sent : dispatchOne a job ev pl evStep = some job') :
    Career job.spec job.view job'.view := by
  obtain ⟨res, reached, reason, rfl⟩ := dispatchOne_go sent fresh moves
  have next : res.next = .skipped := phase_injective reached
  have view := view_end_idle a (enter job ev res) res idle
  rw [acted, if_neg sole, view, view_enter, reason, text, next, idle]
  exact (Step.skipped job.view ev why at_ skips).career

theorem career_stopped (fits : BetweenSteps job) (owed : job.followup = none) (last : State)
    {kind : ReasonKind} (fresh : eventIsStale job.state ev evStep job.liveStep = false)
    (at_ : phase job.state = .between) (sole : ev ≠ .groupEmpty)
    (moves : react pl.coe (phase job.state) ev = .go (phase last) kind [.recordJob, .endJob])
    (stops : Stops job.spec job.cur ev last
      (reasonText kind { pl with carried := job.lastReason }))
    (sent : dispatchOne a job ev pl evStep = some job') :
    Career job.spec job.view job'.view := by
  obtain ⟨res, reached, reason, rfl⟩ := dispatchOne_go sent fresh moves
  have next : res.next = last := phase_injective reached
  have opened : job.steps.isSome = true := by
    rcases fits.opened with ⟨owes, _⟩ | ⟨_, opened, _⟩
    · rw [owed] at owes
      contradiction
    · exact opened
  have view := view_end_idle a (enter job ev res) res fits.live
  rw [acted, if_neg sole, view, view_enter, reason, next, fits.live]
  exact (Step.stopped job.view ev last _ at_ opened stops).career

/-- Deciding a step records it. -/
theorem view_settle (a : Answer) (live : job.liveStep = some job.cur) (ev : Event) (res : Result)
    (signal : Signal) {verdict : Verdict}
    (outcome : stepOutcome res = decidedOutcome verdict res.reason) :
    ((teardown signal ++ [Action.recordStep]).foldl (applyAction a res) (enter job ev res)).view
      = { job.view with
        state := res.next, carried := res.reason.or job.lastReason
        results := job.steps.map fun rs =>
          rs.modify job.cur (record (decidedOutcome verdict res.reason) res.reason job.stepChanged)
        notes := .recorded job.cur ::
          (tornDown signal job.cur ++ .told ev (some job.cur) job.state res.next :: job.notes) } := by
  rw [← outcome]
  cases signal <;>
    simp only [teardown, List.cons_append, List.nil_append, List.foldl_cons, List.foldl_nil,
      applyAction, recordStep, Job.note, Job.updateStep, enter, live] <;> rfl

/-- The step that is decided is recorded; its group is torn down at the latest now. -/
theorem career_decided {coe : Bool} {signal : Signal} {verdict : Verdict} {kind : ReasonKind}
    (live : job.liveStep = some job.cur) (forked : job.procOk = true)
    (fresh : eventIsStale job.state ev evStep job.liveStep = false) (sole : ev ≠ .groupEmpty)
    (at_ : phase job.state = .undecided coe signal)
    (moves : react pl.coe (phase job.state) ev = settle signal verdict kind)
    (reaped : ev = .leaderExitOk ∨ ev = .leaderExitFail → job.leaderReaped = true)
    (decides : Decides coe signal ev verdict
      (reasonText kind { pl with carried := job.lastReason }))
    (sent : dispatchOne a job ev pl evStep = some job') :
    Career job.spec job.view job'.view := by
  obtain ⟨res, reached, reason, rfl⟩ := dispatchOne_go sent fresh moves
  have outcome : stepOutcome res = decidedOutcome verdict res.reason := stepOutcome_settling reached
  have view := view_settle a live ev res signal outcome
  rw [acted, if_neg sole, view, reason]
  exact (Step.decided job.view coe signal ev verdict _ _ res.next at_ forked reaped decides
    reached).career

theorem career_cancel (fits : Fits job) (owed : job.followup = none)
    (sent : dispatchOne a job .cancel pl none = some job') :
    Career job.spec job.view job'.view := by
  have fits' := fits
  rw [Fits] at fits'
  cases at_ : phase job.state with
  | pending =>
      rw [at_] at fits'
      exact career_skipped fits'.live rfl (by simp) (by rw [at_]; rfl) rfl .cancel (Or.inl at_) sent
  | ready =>
      rw [at_] at fits'
      exact career_skipped fits'.live rfl (by simp) (by rw [at_]; rfl) rfl .cancel (Or.inr at_) sent
  | between =>
      rw [at_] at fits'
      exact career_stopped fits' owed .cancelled rfl at_ (by simp) (by rw [at_]; rfl)
        .cancel sent
  | undecided coe signal =>
      rw [at_] at fits'
      have moves : react pl.coe (phase job.state) .cancel =
          settle signal .cancelRequested .cancelRequested := by
        rw [at_]
        cases signal <;> rfl
      exact career_decided fits'.live (forked_of_fits fits owed at_).proc rfl (by simp) at_ moves
        (by simp) (.cancel signal) sent
  | settling verdict killed =>
      rw [at_] at fits'
      by_cases again : verdict = .cancelRequested
      · subst again
        exact career_ignored sent rfl (by simp) (by rw [at_]; rfl)
      · have moves : react pl.coe (phase job.state) .cancel =
            .go (.settling .cancelRequested killed) .cancelRequested [] := by
          rw [at_]
          cases verdict <;> first | rfl | contradiction
        obtain ⟨res, reached, reason, rfl⟩ := dispatchOne_go sent rfl moves
        rw [acted, if_neg (by simp), List.foldl_nil, view_enter, reason, fits'.live]
        exact (Step.overruled job.view verdict _ killed .cancel .cancelRequested res.next at_
          (.cancel verdict again) reached).career
  | final outcome => exact career_ignored sent rfl (by simp) (by rw [at_]; rfl)

theorem career_jobTimeout (fits : Fits job) (owed : job.followup = none)
    (sent : dispatchOne a job .jobTimeout pl none = some job') :
    Career job.spec job.view job'.view := by
  by_cases ended : job.state.isFinal = true
  · rcases dispatchOne_cases sent with ⟨_, rfl⟩ | ⟨fresh, _⟩
    · exact .refl
    · simp [eventIsStale, ended] at fresh
  have fresh : eventIsStale job.state .jobTimeout none job.liveStep = false := by
    simpa [eventIsStale] using ended
  have possible := dispatchOne_possible sent fresh
  have fits' := fits
  rw [Fits] at fits'
  cases at_ : phase job.state with
  | pending => exact absurd (by rw [at_]; rfl) possible
  | ready => exact absurd (by rw [at_]; rfl) possible
  | between =>
      rw [at_] at fits'
      exact career_stopped fits' owed .cancelled fresh at_ (by simp) (by rw [at_]; rfl)
        .timeout sent
  | undecided coe signal =>
      rw [at_] at fits'
      have moves : react pl.coe (phase job.state) .jobTimeout =
          settle signal .cancelTimeout .timeout := by
        rw [at_]
        cases signal <;> rfl
      exact career_decided fits'.live (forked_of_fits fits owed at_).proc fresh (by simp) at_ moves
        (by simp) (.timeout signal) sent
  | settling verdict killed =>
      rw [at_] at fits'
      by_cases open_ : verdict = .goOn ∨ verdict = .fail
      · have moves : react pl.coe (phase job.state) .jobTimeout =
            .go (.settling .cancelTimeout killed) .timeout [] := by
          rw [at_]
          rcases open_ with rfl | rfl <;> rfl
        obtain ⟨res, reached, reason, rfl⟩ := dispatchOne_go sent fresh moves
        rw [acted, if_neg (by simp), List.foldl_nil, view_enter, reason, fits'.live]
        exact (Step.overruled job.view verdict _ killed .jobTimeout .timeout res.next at_
          (.timeout verdict open_) reached).career
      · have told : verdict = .cancelRequested := by
          cases verdict with
          | cancelTimeout => exact absurd (by rw [at_]; rfl) possible
          | cancelRequested => rfl
          | goOn => simp at open_
          | fail => simp at open_
        subst told
        exact career_ignored sent fresh (by simp) (by rw [at_]; rfl)
  | final outcome => exact absurd ((isFinal_iff job.state).mpr ⟨outcome, at_⟩) ended

theorem career_needsMet (fits : Fits job)
    (sent : dispatchOne a job .needsMet pl none = some job') :
    Career job.spec job.view job'.view := by
  have at_ := phase_of_needsMet (dispatchOne_possible sent rfl)
  rw [Fits, at_] at fits
  have moves : react pl.coe (phase job.state) .needsMet = .go .ready .none [] := by rw [at_]; rfl
  obtain ⟨res, reached, reason, rfl⟩ := dispatchOne_go sent rfl moves
  have next : res.next = .ready := phase_injective reached
  rw [acted, if_neg (by simp), List.foldl_nil, view_enter, reason, next, fits.live]
  exact (Step.needsMet job.view at_).career

theorem career_needsFailed (fits : Fits job)
    (sent : dispatchOne a job .needsFailed pl none = some job') :
    Career job.spec job.view job'.view := by
  have at_ := phase_of_needsFailed (dispatchOne_possible sent rfl)
  rw [Fits, at_] at fits
  exact career_skipped fits.live rfl (by simp) (by rw [at_]; rfl) rfl .needs (Or.inl at_) sent

theorem career_skip (fits : Fits job) (told : pl.reason = some .targetDisabled)
    (sent : dispatchOne a job .skip pl none = some job') :
    Career job.spec job.view job'.view := by
  have waiting := phase_of_skip (dispatchOne_possible sent rfl)
  have idle : job.liveStep = none := by
    rw [Fits] at fits
    rcases waiting with at_ | at_ <;> rw [at_] at fits <;> exact fits.live
  have moves : react pl.coe (phase job.state) .skip =
      .go (.final .skipped) .fromEvent [.recordJob, .endJob] := by
    rcases waiting with at_ | at_ <;> rw [at_] <;> rfl
  exact career_skipped idle rfl (by simp) moves told .disabled waiting sent

theorem career_slotGranted (fits : Fits job)
    (sent : dispatchOne a job .slotGranted pl none = some job') :
    Career job.spec job.view job'.view := by
  have at_ := phase_of_slotGranted (dispatchOne_possible sent rfl)
  rw [Fits, at_] at fits
  have moves : react pl.coe (phase job.state) .slotGranted = .go .between .none [.startJob] := by
    rw [at_]; rfl
  obtain ⟨res, reached, reason, rfl⟩ := dispatchOne_go sent rfl moves
  have next : res.next = .betweenSteps := phase_injective reached
  have view : ([Action.startJob].foldl (applyAction a res) (enter job .slotGranted res)).view =
      { (enter job .slotGranted res).view with
        results := if a.start.isNone then some (job.spec.steps.map fun _ => StepResult.empty)
          else job.steps
        notes := .started a.start.isNone :: (enter job .slotGranted res).view.notes } := by
    simp only [List.foldl_cons, List.foldl_nil, applyAction, jobStart]
    cases a.start <;> rfl
  rw [acted, if_neg (by simp), view, view_enter, reason, next, fits.live]
  exact (Step.started job.view a.start.isNone at_).career

theorem career_noMoreSteps (fits : Fits job) (owed : job.followup = none)
    (past : job.spec.steps[job.cur]? = none)
    (sent : dispatchOne a job .noMoreSteps pl none = some job') :
    Career job.spec job.view job'.view := by
  have at_ := phase_of_noMoreSteps (dispatchOne_possible sent rfl)
  rw [Fits, at_] at fits
  exact career_stopped fits owed .success rfl at_ (by simp) (by rw [at_]; rfl) (.done past) sent

theorem career_nextStep (fits : Fits job) (owed : job.followup = none) {step : StepSpec}
    (here : job.spec.steps[job.cur]? = some step) (coe : pl.coe = step.continueOnError)
    (sent : dispatchOne a job .nextStep pl none = some job') :
    Career job.spec job.view job'.view := by
  have at_ := phase_of_nextStep (dispatchOne_possible sent rfl)
  rw [Fits, at_] at fits
  have opened : job.steps.isSome = true := by
    rcases fits.opened with ⟨owes, _⟩ | ⟨_, opened, _⟩
    · rw [owed] at owes
      contradiction
    · exact opened
  have moves : react pl.coe (phase job.state) .nextStep =
      .go (.undecided pl.coe .none) .none [.spawnStep] := by
    rw [at_]; rfl
  obtain ⟨res, reached, reason, rfl⟩ := dispatchOne_go sent rfl moves
  have view : ∃ ok, ([Action.spawnStep].foldl (applyAction a res)
      (enter job .nextStep res)).view = { (enter job .nextStep res).view with
        forked := ok, reaped := false
        results := job.steps.map fun rs => rs.modify job.cur (describeStep (some step))
        notes := .spawned job.cur ok :: (enter job .nextStep res).view.notes } := by
    simp only [List.foldl_cons, List.foldl_nil, applyAction, stepSpawn]
    cases a.spawn with
    | refused op errno =>
        refine ⟨false, ?_⟩
        simp [Job.view, Job.note, Job.updateStep, oweStartFailed, enter, here, fits.proc]
    | forked pid unreachable =>
        refine ⟨true, ?_⟩
        simp [Job.view, Job.note, Job.updateStep, enter, here]
  obtain ⟨ok, view⟩ := view
  rw [acted, if_neg (by simp), view, view_enter, reason, fits.live]
  exact (Step.spawned job.view step res.next ok at_ opened here (coe ▸ reached)).career

/-- The start-failed that an action left behind. -/
theorem career_startFailed (fits : Fits job) (owes : job.followup = some ev)
    (sent : dispatchOne a { job with followup := none } ev pl none = some job') :
    Career job.spec job.view job'.view := by
  obtain ⟨rfl, ⟨at_, between, closed⟩ | ⟨coe, at_, undecided, proc⟩⟩ := startFailed_of_owed fits owes
  · have moves : react pl.coe (phase job.state) .startFailed =
        .go (.final .failed) .engineError [.recordJob, .endJob] := by
      rw [at_]; rfl
    obtain ⟨res, reached, reason, rfl⟩ := dispatchOne_go sent rfl moves
    have next : res.next = .failed := phase_injective reached
    have view := view_end_idle a (enter { job with followup := none } .startFailed res) res
      between.live
    rw [acted, if_neg (by simp), view, view_enter, reason, next, between.live]
    exact (Step.notStarted job.view at_ closed).career
  · have moves : react pl.coe (phase job.state) .startFailed =
        .go (.final .failed) .engineError [.recordStep, .recordJob, .endJob] := by
      rw [at_]; rfl
    obtain ⟨res, reached, reason, rfl⟩ := dispatchOne_go sent rfl moves
    have next : res.next = .failed := phase_injective reached
    have outcome : stepOutcome res = .failed := stepOutcome_failed next reason
    have view := view_end_live a
      (recordStep res (enter { job with followup := none } .startFailed res)) res undecided.live
    rw [acted, if_neg (by simp), List.foldl_cons, applyAction, view, view_recordStep, view_enter,
      outcome, reason, next, undecided.live]
    have step : Step job.spec job.view _ := .notSpawned job.view coe job.stepChanged at_ proc
    refine Eq.subst (motive := Career job.spec job.view) ?_ step.career
    simp [Job.view, reasonText, reasonName, proc]
    rfl

theorem career_leaderExit (fits : Fits job) (why : Reason)
    (told : pl.reason = some why) (live : job.liveStep.isSome = true) (proc : job.procOk = true)
    {changed : Bool} (exits : ev = .leaderExitOk ∨ ev = .leaderExitFail)
    (sent : dispatchOne a (job.reapLeader changed) ev pl job.liveStep = some job') :
    Career job.spec job.view job'.view := by
  have fresh : eventIsStale job.state ev job.liveStep job.liveStep = false := by
    rcases exits with rfl | rfl <;> simp [eventIsStale]
  have sole : ev ≠ .groupEmpty := by rcases exits with rfl | rfl <;> simp
  have liveHere : job.liveStep = some job.cur := by
    obtain ⟨step, at_⟩ := Option.isSome_iff_exists.mp live
    rw [at_, live_eq_cur fits step at_]
  have reap : Career job.spec job.view (job.reapLeader changed).view := by
    have step : Step job.spec job.view _ := .reaped job.view proc
    refine Eq.subst (motive := Career job.spec job.view) ?_ step.career
    simp [Job.view, Job.reapLeader, Job.note, liveHere]
  refine reap.trans ?_
  rcases phase_of_live fits live with ⟨coe, signal, at_⟩ | ⟨verdict, killed, at_⟩
  · have decides : ∃ verdict kind, react pl.coe (phase job.state) ev = settle signal verdict kind ∧
        Decides coe signal ev verdict (reasonText kind { pl with carried := job.lastReason }) := by
      rw [at_]
      cases signal with
      | none =>
          rcases exits with rfl | rfl
          · exact ⟨_, _, rfl, .succeeded⟩
          · refine ⟨_, _, rfl, ?_⟩
            simp only [reasonText, told]
            exact .failed why
      | term => rcases exits with rfl | rfl <;> exact ⟨_, _, rfl, .late _ _ (by simp) (by simp)⟩
      | kill => rcases exits with rfl | rfl <;> exact ⟨_, _, rfl, .late _ _ (by simp) (by simp)⟩
    obtain ⟨verdict, kind, moves, decides⟩ := decides
    have career : Career (job.reapLeader changed).spec (job.reapLeader changed).view job'.view :=
      career_decided liveHere proc fresh sole at_ moves (fun _ => rfl) decides sent
    exact career
  · have ignored : react pl.coe (phase job.state) ev = .ignore := by
      rcases exits with rfl | rfl <;> rw [at_] <;> rfl
    have career : Career (job.reapLeader changed).spec (job.reapLeader changed).view job'.view :=
      career_ignored sent fresh sole ignored
    exact career

theorem career_groupEmpty (fits : Fits job)
    (reaped : job.leaderReaped = true)
    (sent : dispatchOne a (job.note (.groupSeenEmpty job.liveStep)) .groupEmpty pl job.liveStep =
      some job') :
    Career job.spec job.view job'.view := by
  have fresh : eventIsStale job.state .groupEmpty job.liveStep job.liveStep = false := by
    simp [eventIsStale]
  obtain ⟨verdict, killed, at_⟩ := phase_of_groupEmpty (dispatchOne_possible sent fresh)
  rw [note_state] at at_
  rw [Fits, at_] at fits
  have moves : react pl.coe (phase job.state) .groupEmpty = settled verdict := by
    rw [at_]
    cases verdict <;> rfl
  have finish : ∀ res, (stepFinish (enter (job.note (.groupSeenEmpty job.liveStep)) .groupEmpty
      res)).view = { job.view with
        state := res.next, carried := res.reason.or job.lastReason
        cur := job.cur + 1, forked := false
        notes := .finished job.cur :: .told .groupEmpty (some job.cur) job.state res.next ::
          .groupSeenEmpty (some job.cur) :: job.notes } := by
    intro res
    have view := view_stepFinish
      (enter (job.note (.groupSeenEmpty job.liveStep)) .groupEmpty res) fits.live
    rw [view]
    simp [Job.view, enter, Job.note, fits.live]
  by_cases goOn : verdict = .goOn
  · subst goOn
    obtain ⟨res, reached, reason, rfl⟩ := dispatchOne_go sent fresh moves
    have next : res.next = .betweenSteps := phase_injective reached
    rw [acted, if_pos rfl, List.foldl_nil, finish, reason, next]
    exact (Step.movedOn job.view killed at_ fits.proc reaped).career
  · obtain ⟨last, kind, ends, closes⟩ : ∃ last kind,
        settled verdict = .go (phase last) kind [.recordJob, .endJob] ∧
        Closes job.lastReason verdict last
          (reasonText kind { pl with carried := job.lastReason }) := by
      cases verdict with
      | goOn => contradiction
      | fail => exact ⟨.failed, _, rfl, .fail⟩
      | cancelTimeout => exact ⟨.cancelled, _, rfl, .timeout⟩
      | cancelRequested => exact ⟨.cancelled, _, rfl, .cancel⟩
    obtain ⟨res, reached, reason, rfl⟩ := dispatchOne_go sent fresh (moves.trans ends)
    have next : res.next = last := phase_injective reached
    have view := view_end_idle a
      (stepFinish (enter (job.note (.groupSeenEmpty job.liveStep)) .groupEmpty res)) res
      stepFinish_live
    rw [acted, if_pos rfl, view, finish, reason, next, stepFinish_spec]
    exact (Step.closed job.view verdict killed last _ at_ fits.proc reaped closes).career

theorem career_stepTimeout (fits : Fits job) (owed : job.followup = none) {readable : Bool}
    (sent : dispatchOne a (job.readStepTimer readable) .stepTimeout pl job.liveStep = some job') :
    Career job.spec job.view job'.view := by
  have fresh : eventIsStale job.state .stepTimeout job.liveStep job.liveStep = false := by
    simp [eventIsStale]
  rcases phase_of_stepTimeout (dispatchOne_possible sent fresh) with
    ⟨coe, at_⟩ | ⟨verdict, killed, at_⟩
  · have at_ : phase job.state = .undecided coe .none := at_
    have forked := forked_of_fits fits owed at_
    rw [Fits, at_] at fits
    have moves : react pl.coe (phase job.state) .stepTimeout =
        .go (.undecided coe .term) .timeout [.sigtermGroup, .armGrace] := by
      rw [at_]; rfl
    obtain ⟨res, reached, reason, rfl⟩ := dispatchOne_go sent fresh moves
    have step : Step job.spec job.view _ := .timedOut job.view coe res.next at_ forked.proc reached
    refine Eq.subst (motive := Career job.spec job.view) ?_ step.career
    simp [Job.view, acted, enter, Job.note, Job.readStepTimer, applyAction, fits.live, reason,
      reasonText, reasonName]
  · have at_ : phase job.state = .settling verdict killed := at_
    have career : Career (job.readStepTimer readable).spec (job.readStepTimer readable).view
        job'.view :=
      career_ignored sent fresh (by simp) (by rw [readStepTimer_state, at_]; rfl)
    exact career

theorem career_graceExpired (fits : Fits job) (owed : job.followup = none) {readable : Bool}
    (sent : dispatchOne a ((job.readGraceTimer readable).note (.graceSeen job.liveStep))
      .graceExpired pl job.liveStep = some job') :
    Career job.spec job.view job'.view := by
  have fresh : eventIsStale job.state .graceExpired job.liveStep job.liveStep = false := by
    simp [eventIsStale]
  have killing : ∃ next, react pl.coe (phase job.state) .graceExpired =
        .go next .none [.sigkillGroup] ∧ job.liveStep = some job.cur ∧ job.procOk = true ∧
      ((∃ coe, phase job.state = .undecided coe .term ∧ next = .undecided coe .kill) ∨
        ∃ verdict, phase job.state = .settling verdict false ∧ next = .settling verdict true) := by
    rcases phase_of_graceExpired (dispatchOne_possible sent fresh) with ⟨coe, at_⟩ | ⟨verdict, at_⟩
    · have at_ : phase job.state = .undecided coe .term := at_
      have forked := forked_of_fits fits owed at_
      rw [Fits, at_] at fits
      exact ⟨_, by rw [at_]; rfl, fits.live, forked.proc, Or.inl ⟨coe, at_, rfl⟩⟩
    · have at_ : phase job.state = .settling verdict false := at_
      rw [Fits, at_] at fits
      exact ⟨_, by rw [at_]; cases verdict <;> rfl, fits.live, fits.proc,
        Or.inr ⟨verdict, at_, rfl⟩⟩
  obtain ⟨next, moves, live, proc, phases⟩ := killing
  obtain ⟨res, rfl, reason, rfl⟩ := dispatchOne_go sent fresh moves
  have step : Step job.spec job.view _ := .killed job.view res.next proc phases
  refine Eq.subst (motive := Career job.spec job.view) ?_ step.career
  simp [Job.view, acted, enter, Job.note, Job.readGraceTimer, applyAction, live, reason, reasonText,
    reasonName]

end Dispatch

/-- Whatever the kernel sends, the job's career goes on. -/
theorem Sends.career {w : Workflow} {a : Answer} {ctx : RunCtx} {call : Call} {job' : Job}
    (sends : Sends w a ctx call) (sound : Sound ctx)
    (sent : dispatchOne a call.read call.ev call.pl call.evStep = some job') :
    Career call.job.spec call.job.view job'.view := by
  have fits : Fits call.job := sound.fits _ (List.mem_of_getElem? sends.here)
  have calm : ctx.sending = none → call.job.followup = none := by
    intro idle
    exact (sound.calm call.index call.job sends.here (by simp [idle])).owed
  cases sends with
  | skip => exact career_skip fits rfl sent
  | cancel again i told job idle => exact career_cancel fits (calm idle) sent
  | sched ev evs job idle at_ here =>
      have due := sound.dueAt at_ here
      simp only at sent
      rcases due with ⟨_, kind | kind⟩ | ⟨_, kind⟩
      · exact career_needsMet fits (kind ▸ sent)
      · exact career_needsFailed fits (kind ▸ sent)
      · exact career_slotGranted fits (kind ▸ sent)
  | owed j job ev sending here owes => exact career_startFailed fits owes sent
  | pollCancel j job sending here owed => exact career_cancel fits owed sent
  | pollTimeout j job sending here owed =>
      have career := career_jobTimeout (fits_readTimer fits a.readable) owed sent
      exact career
  | nextStep j job step sending here owed between _ more =>
      exact career_nextStep fits owed more rfl sent
  | noMoreSteps j job sending here owed _ _ more =>
      exact career_noMoreSteps fits owed more sent
  | stepTimer tag tags job idle at_ kind here live fired =>
      rw [tagStep_of_live live] at sent
      exact career_stepTimeout fits (calm idle) sent
  | graceTimer tag tags job idle at_ kind here live fired =>
      rw [tagStep_of_live live] at sent
      exact career_graceExpired fits (calm idle) sent
  | lateTimer tag tags job ev idle at_ kind here late =>
      have timed : ev = .stepTimeout ∨ ev = .graceExpired :=
        kind.imp (fun k => k.2) (fun k => k.2)
      rw [dispatchOne_late fits (calm idle) timed late sent]
      exact .refl
  | jobTimer tag tags job idle =>
      have career := career_jobTimeout (fits_readTimer fits a.readable) (calm idle) sent
      exact career
  | lateJobTimer tag tags job idle => exact career_jobTimeout fits (calm idle) sent
  | leaderExit e j job rest idle at_ waited here leader =>
      exact career_leaderExit fits _ rfl leader.1 leader.2.1
        (leaderExitEvent_exits job e) sent
  | groupEmpty i job rest idle at_ here gone =>
      exact career_groupEmpty fits gone.2.2 sent

/-! ## Careers along a run -/

/-- The career of a job that was just loaded. -/
def View.initial : View := ⟨.pending, 0, none, none, none, false, false, []⟩

section Runs
variable {w : Workflow} {allowed : RunCtx → Answer → Prop} {ctx ctx' : RunCtx} {j : Nat} {job : Job}

theorem career_of_step {a : Answer} (sound : Sound ctx) (moved : stepKernel w ctx a = some ctx')
    (here : ctx.jobs[j]? = some job) :
    ∃ job', ctx'.jobs[j]? = some job' ∧ job'.spec = job.spec ∧
      Career job.spec job.view job'.view := by
  rcases stepKernel_cases moved with quiet | ⟨call, job', sends, sent, rfl⟩
  · exact ⟨job, by rwa [quiet.jobs], rfl, .refl⟩
  · by_cases same : call.index = j
    · subst same
      have mine := sends.here
      rw [here, Option.some.injEq] at mine
      subst mine
      exact ⟨job', List.getElem?_set_self (List.getElem?_eq_some_iff.mp here).1,
        (dispatchOne_spec sent).1.trans sends.read_spec.1, sends.career sound sent⟩
    · exact ⟨job, by rwa [List.getElem?_set_ne same], rfl, .refl⟩

theorem career_of_run (sound : Sound ctx) (run : (machine w).Run allowed ctx ctx')
    (here : ctx.jobs[j]? = some job) :
    ∃ job', ctx'.jobs[j]? = some job' ∧ job'.spec = job.spec ∧
      Career job.spec job.view job'.view := by
  induction run with
  | refl => exact ⟨job, here, rfl, .refl⟩
  | tail run a ok moved ih =>
      obtain ⟨middle, there, spec, before⟩ := ih
      have sound' := run.preserves (P := Sound) (fun _ _ _ s _ m => sound_step s m) sound
      obtain ⟨job', here', spec', after⟩ := career_of_step sound' moved there
      rw [spec] at spec' after
      exact ⟨job', here', spec', before.trans after⟩

/-- Every job of every run has a career from the start. -/
theorem career_of_reachable (reachable : (machine w).Reachable allowed ctx)
    (here : ctx.jobs[j]? = some job) : Career job.spec View.initial job.view := by
  have inRange : j < (RunCtx.initial w).jobs.length := by
    have specs := specs_of_reachable reachable
    have lengths := congrArg List.length specs
    have bound := (List.getElem?_eq_some_iff.mp here).1
    simp only [RunCtx.initial, List.length_map] at lengths ⊢
    omega
  obtain ⟨spec, detail, first⟩ : ∃ spec detail,
      (RunCtx.initial w).jobs[j]? = some (Job.initial spec detail) := by
    simp only [RunCtx.initial, List.length_map] at inRange ⊢
    exact ⟨w.jobs[j], _, by rw [List.getElem?_map, List.getElem?_eq_getElem inRange]; rfl⟩
  obtain ⟨job', here', spec', career⟩ := career_of_run (sound_initial w) reachable first
  rw [here, Option.some.injEq] at here'
  subst here'
  rw [spec']
  exact career

end Runs

/-- A law that every step of a career keeps holds of every career. -/
theorem Career.invariant {spec : JobSpec} {P : View → Prop} {v v' : View}
    (keeps : ∀ v v', P v → Step spec v v' → P v') (holds : P v) (career : Career spec v v') :
    P v' := by
  induction career with
  | refl => exact holds
  | tail _ step ih => exact keeps _ _ ih step

end Qwe.Kernel
