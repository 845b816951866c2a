import Qwe.Kernel.Verdicts

/-!
# Why a step failed

Every record of a failed step has a cause: the step could not be spawned, its own
timeout fired, or its leader's exit was told as a failure, with the reason that is
in the record.
-/

set_option autoImplicit false

namespace Qwe.Kernel

open Qwe.Lifecycle Qwe.Sched

/-- The record of step `i` is a failure with this reason. -/
def FailedAt (job : Job) (i : Nat) (why : Option Reason) : Prop :=
  ∃ r, job.view.result i = some r ∧ r.outcome = some .failed ∧ r.reason = why

/-! ## What an action writes -/

section Actions
variable {a : Answer} {res : Result} {job : Job} {i : Nat} {why : Option Reason}

theorem failedAt_of_modify {steps : Option (List StepResult)} {k : Nat} {f : StepResult → StepResult}
    {r : StepResult} (found : ((steps.map fun rs => rs.modify k f).bind (·[i]?)) = some r) :
    ∃ r', steps.bind (·[i]?) = some r' ∧ r = if k = i then f r' else r' := by
  cases steps with
  | none => contradiction
  | some rs =>
      simp only [Option.map_some, Option.bind_some] at found ⊢
      rw [getElem?_modify_at, Option.map_eq_some_iff] at found
      obtain ⟨r', there, same⟩ := found
      exact ⟨r', there, same.symm⟩

theorem failedAt_stepSpawn (failed : FailedAt (stepSpawn a job) i why) : FailedAt job i why := by
  obtain ⟨r, found, outcome, reason⟩ := failed
  have steps : (stepSpawn a job).view.results =
      job.steps.map fun rs => rs.modify job.cur (describeStep job.spec.steps[job.cur]?) := by
    unfold stepSpawn
    split <;> rfl
  rw [View.result, steps] at found
  obtain ⟨r', there, rfl⟩ := failedAt_of_modify found
  refine ⟨r', there, ?_, ?_⟩
  · rw [← outcome]
    split
    · rw [describeStep_outcome]
    · rfl
  · rw [← reason]
    split
    · unfold describeStep
      split <;> rfl
    · rfl

theorem failedAt_jobStart (failed : FailedAt (jobStart a job) i why) : FailedAt job i why := by
  obtain ⟨r, found, outcome, reason⟩ := failed
  unfold jobStart at found
  split at found
  · exact ⟨r, found, outcome, reason⟩
  · obtain ⟨rs, results, there⟩ := View.result_eq_some.mp found
    cases results
    rw [List.getElem?_map, Option.map_eq_some_iff] at there
    obtain ⟨spec, _, rfl⟩ := there
    contradiction

theorem failedAt_jobEnd (failed : FailedAt (jobEnd job) i why) : FailedAt job i why := by
  obtain ⟨r, found, outcome, reason⟩ := failed
  have steps : ∃ k, (jobEnd job).view.results = job.steps.map (skipFrom job.spec k) := by
    unfold jobEnd stepFinish
    split <;> exact ⟨_, rfl⟩
  obtain ⟨k, steps⟩ := steps
  obtain ⟨rs, results, there⟩ := View.result_eq_some.mp found
  rw [steps, Option.map_eq_some_iff] at results
  obtain ⟨before, opened, rfl⟩ := results
  rw [getElem?_skipFrom, Option.map_eq_some_iff] at there
  obtain ⟨r', place, rfl⟩ := there
  split at outcome
  · cases outcome
  · rename_i early
    rw [if_neg early] at reason
    exact ⟨r', View.result_eq_some.mpr ⟨before, opened, place⟩, outcome, reason⟩

/-- Only `record_step` writes a failure. -/
theorem failedAt_applyAction {act : Action} (other : act ≠ .recordStep)
    (failed : FailedAt (applyAction a res job act) i why) : FailedAt job i why := by
  cases act with
  | recordStep => contradiction
  | startJob => exact failedAt_jobStart failed
  | spawnStep => exact failedAt_stepSpawn failed
  | endJob => exact failedAt_jobEnd failed
  | sigtermGroup => exact failed
  | armGrace => exact failed
  | sigkillGroup => exact failed
  | recordJob => exact failed

theorem failedAt_foldl {actions : List Action} (none_ : .recordStep ∉ actions)
    (failed : FailedAt (actions.foldl (applyAction a res) job) i why) : FailedAt job i why := by
  induction actions generalizing job with
  | nil => exact failed
  | cons act actions ih =>
      rw [List.mem_cons, not_or] at none_
      exact failedAt_applyAction (Ne.symm none_.1) (ih none_.2 failed)

theorem failedAt_recordStep (failed : FailedAt (recordStep res job) i why) :
    FailedAt job i why ∨ (i = job.cur ∧ why = res.reason ∧ stepOutcome res = .failed) := by
  obtain ⟨r, found, outcome, reason⟩ := failed
  obtain ⟨r', there, rfl⟩ := failedAt_of_modify found
  split at outcome
  · rename_i here
    rw [if_pos here] at reason
    exact Or.inr ⟨here.symm, reason.symm, Option.some.inj outcome⟩
  · rename_i elsewhere
    rw [if_neg elsewhere] at reason
    exact Or.inl ⟨r', there, outcome, reason⟩

end Actions

/-! ## What a dispatch writes -/

/-- The move of an undecided step that is recorded. -/
structure Records (p : Phase) (ev : Event) (next : Phase) (kind : ReasonKind)
    (actions : List Action) : Prop where
  before : ev ≠ .groupEmpty
  cases_ :
    (∃ flag, p = .undecided flag .none ∧ ev = .startFailed ∧ kind = .engineError ∧
      actions = [.recordStep, .recordJob, .endJob]) ∨
    ∃ flag sent verdict, p = .undecided flag sent ∧ next = .settling verdict sent.killed ∧
      actions = teardown sent ++ [.recordStep] ∧
      (kind = .none ∨ (sent = .none ∧ ev = .leaderExitFail ∧ kind = .fromEvent) ∨
        (sent ≠ .none ∧ kind = .timeout) ∨ verdict = .cancelTimeout ∨ verdict = .cancelRequested)

theorem react_records {coe : Bool} {p next : Phase} {ev : Event} {kind : ReasonKind}
    {actions : List Action} (moves : react coe p ev = .go next kind actions)
    (recorded : .recordStep ∈ actions) : Records p ev next kind actions := by
  rcases p with _ | _ | _ | ⟨flag, _ | _ | _⟩ | ⟨_ | _ | _ | _, _ | _⟩ | _ <;> cases ev
  all_goals first
    | (cases moves; done)
    | (cases moves; simp [teardown] at recorded; done)
    | (cases moves; exact ⟨by simp, Or.inl ⟨_, rfl, rfl, rfl, rfl⟩⟩)
    | (cases moves; exact ⟨by simp, Or.inr ⟨_, _, _, rfl, rfl, rfl, by simp⟩⟩)

/-- What a dispatch records as a failure, from which phase and with which reason. -/
inductive Fails (ev : Event) (pl : Payload) : Phase → Option Reason → Prop where
  | unspawned (coe : Bool) (is : ev = .startFailed) :
      Fails ev pl (.undecided coe .none) (some .engineError)
  | exited (coe : Bool) (is : ev = .leaderExitFail) : Fails ev pl (.undecided coe .none) pl.reason
  | late (coe : Bool) (sent : Signal) (signalled : sent ≠ .none) :
      Fails ev pl (.undecided coe sent) (some .timeout)

section Dispatch
variable {a : Answer} {job job' : Job} {ev : Event} {pl : Payload} {evStep : Option Nat} {i : Nat}
  {why : Option Reason}

theorem failedAt_acted {res : Result} (failed : FailedAt (acted job ev res) i why) :
    FailedAt job i why := by
  unfold acted at failed
  split at failed
  · have steps : (stepFinish (enter job ev res)).view.results = job.view.results := by
      unfold stepFinish
      split <;> rfl
    obtain ⟨r, found, told⟩ := failed
    rw [View.result, steps] at found
    exact ⟨r, found, told⟩
  · exact failed

theorem fails_of_settling {res : Result} {flag : Bool} {sent : Signal} {verdict : Verdict}
    (next : phase res.next = .settling verdict sent.killed)
    (reason : res.reason = reasonText res.reasonKind { pl with carried := job.lastReason })
    (kinds : res.reasonKind = .none ∨
      (sent = .none ∧ ev = .leaderExitFail ∧ res.reasonKind = .fromEvent) ∨
      (sent ≠ .none ∧ res.reasonKind = .timeout) ∨ verdict = .cancelTimeout ∨
      verdict = .cancelRequested)
    (lost : stepOutcome res = .failed) : Fails ev pl (.undecided flag sent) res.reason := by
  rw [stepOutcome_settling next] at lost
  rcases kinds with kind | ⟨rfl, is, kind⟩ | ⟨signalled, kind⟩ | rfl | rfl
  · rw [reason, kind] at lost
    cases verdict <;> contradiction
  · rw [reason, kind]
    exact .exited flag is
  · rw [reason, kind]
    exact .late flag sent signalled
  · contradiction
  · contradiction

theorem failedAt_dispatchOne (sent : dispatchOne a job ev pl evStep = some job')
    (failed : FailedAt job' i why) :
    FailedAt job i why ∨ (i = job.cur ∧ Fails ev pl (phase job.state) why) := by
  rcases dispatchOne_cases sent with ⟨_, rfl⟩ | ⟨_, ⟨_, rfl⟩ | ⟨res, moves, reason, rfl⟩⟩
  · exact Or.inl failed
  · exact Or.inl (failedAt_acted failed)
  by_cases recorded : .recordStep ∈ res.actions
  · obtain ⟨before, moved⟩ := react_records moves recorded
    have entered : acted job ev res = enter job ev res := if_neg before
    rw [entered] at failed
    rcases moved with ⟨flag, at_, is, kind, actions⟩ |
      ⟨flag, signal, verdict, at_, next, actions, kinds⟩
    · rw [actions] at failed
      have unwritten : Action.recordStep ∉ [.recordJob, .endJob] := by simp
      have written : FailedAt (recordStep res (enter job ev res)) i why :=
        failedAt_foldl unwritten failed
      rcases failedAt_recordStep written with old | ⟨here, rfl, _⟩
      · exact Or.inl old
      · rw [at_, reason, kind]
        exact Or.inr ⟨here, .unspawned flag is⟩
    · rw [actions, List.foldl_append] at failed
      have place : ((teardown signal).foldl (applyAction a res) (enter job ev res)).cur = job.cur := by
        cases signal <;> rfl
      rcases failedAt_recordStep failed with old | ⟨here, rfl, lost⟩
      · have unwritten : .recordStep ∉ teardown signal := by
          cases signal <;> simp [teardown]
        have earlier : FailedAt (enter job ev res) i why := failedAt_foldl unwritten old
        exact Or.inl earlier
      · rw [at_]
        exact Or.inr ⟨here.trans place, fails_of_settling next reason kinds lost⟩
  · exact Or.inl (failedAt_acted (failedAt_foldl recorded failed))

end Dispatch

/-! ## Signalled steps have timed out -/

/-- A step that was signalled before it was decided has timed out. -/
def Warned (v : View) : Prop :=
  ∀ coe sent, phase v.state = .undecided coe sent → sent ≠ .none → timedOut v.cur v.notes = true

theorem Warned.of_phase {v : View} (apart : ∀ coe sent, phase v.state = .undecided coe sent →
    sent = .none) : Warned v := by
  intro coe sent at_ signalled
  exact absurd (apart coe sent at_) signalled

theorem warned_step {spec : JobSpec} {v v' : View} (warned : Warned v) (step : Step spec v v') :
    Warned v' := by
  cases step with
  | ignored coe ev live still =>
      intro coe sent at_ signalled
      simp [timedOut_cons, warned coe sent at_ signalled]
  | reaped forked =>
      intro coe sent at_ signalled
      simp [timedOut_cons, warned coe sent at_ signalled]
  | timedOut coe next at_ forked reached =>
      intro _ _ _ _
      have moved : v.state ≠ next := by
        intro same
        rw [same, reached] at at_
        cases at_
      simp [timedOut_cons, Note.timesOut, moved]
  | killed next forked moves =>
      rcases moves with ⟨coe, at_, _⟩ | ⟨verdict, _, reached⟩
      · intro _ _ _ _
        simp [timedOut_cons, warned coe .term at_ (by simp)]
      · exact .of_phase (by simp [reached])
  | needsMet => exact .of_phase (by simp [phase])
  | skipped => exact .of_phase (by simp [phase])
  | started => exact .of_phase (by simp [phase])
  | notStarted => exact .of_phase (by simp [phase])
  | stopped ev last why at_ opened stops =>
      obtain ⟨outcome, final⟩ := stops.final
      exact .of_phase (by simp [final])
  | spawned step next ok at_ opened here reached =>
      refine .of_phase fun coe sent at_ => ?_
      rw [reached, Phase.undecided.injEq] at at_
      exact at_.2.symm
  | notSpawned => exact .of_phase (by simp [phase])
  | decided coe sent ev verdict why changed next at_ forked reaped decides reached =>
      exact .of_phase (by simp [reached])
  | overruled verdict verdict' killed ev why next at_ overrules reached =>
      exact .of_phase (by simp [reached])
  | movedOn => exact .of_phase (by simp [phase])
  | closed verdict killed last why at_ forked reaped closes =>
      obtain ⟨outcome, final⟩ := closes.final
      exact .of_phase (by simp [final])

theorem notes_step {spec : JobSpec} {v v' : View} (step : Step spec v v') :
    v.notes ⊆ v'.notes := by
  cases step <;> intro entry there <;> simp [there]

theorem Career.notes {spec : JobSpec} {v v' : View} (career : Career spec v v') :
    v.notes ⊆ v'.notes := by
  induction career with
  | refl => exact List.Subset.refl _
  | tail _ step inductionHypothesis => exact List.Subset.trans inductionHypothesis (notes_step step)

/-! ## Every failure has a cause -/

/-- Why the record of step `i` is a failure with this reason. -/
inductive Cause (said : Nat → Reason → Prop) (job : Job) (i : Nat) : Option Reason → Prop where
  | unspawned (failed : .spawned i false ∈ job.notes) : Cause said job i (some .engineError)
  | timeout (late : timedOut i job.notes = true) : Cause said job i (some .timeout)
  | exited (why : Reason) (told : said i why) : Cause said job i (some why)

theorem Cause.mono {said : Nat → Reason → Prop} {job job' : Job} {i : Nat} {why : Option Reason}
    (cause : Cause said job i why) (kept : job.notes ⊆ job'.notes) : Cause said job' i why := by
  cases cause with
  | unspawned failed => exact .unspawned (kept failed)
  | timeout late =>
      obtain ⟨entry, there, told⟩ := List.any_eq_true.mp late
      exact .timeout (List.any_eq_true.mpr ⟨entry, kept there, told⟩)
  | exited why told => exact .exited why told

section Causes
variable {w : Workflow} {a : Answer} {ctx : RunCtx} {call : Call}

/-- Only what is owed is told as a failed start. -/
theorem Sends.owes (sends : Sends w a ctx call) (sound : Sound ctx) (is : call.ev = .startFailed) :
    call.job.followup = some .startFailed := by
  cases sends with
  | owed j job ev sending here owes =>
      simp only at is
      exact is ▸ owes
  | sched ev evs job idle at_ here =>
      rcases sound.dueAt at_ here with ⟨_, kind | kind⟩ | ⟨_, kind⟩ <;> simp [kind] at is
  | lateTimer tag tags job ev idle at_ kind =>
      rcases kind with ⟨_, rfl⟩ | ⟨_, rfl⟩ <;> contradiction
  | leaderExit e j job rest =>
      rcases leaderExitEvent_exits job e with exit | exit <;> simp [exit] at is
  | _ => contradiction

/-- In `reap_children` the job that is sent an event is the one the process leads. -/
theorem leaderOf_of_step {ctx' : RunCtx} {rest : List Nat} {e : Exit} {j : Nat}
    (moved : stepKernel w ctx a = some ctx') (idle : ctx.sending = none)
    (at_ : ctx.loop = .reap rest) (waited : a.waited = some e) (sends : ctx'.sending = some j) :
    leaderOf ctx.jobs e.pid = some j := by
  simp only [stepKernel, idle, runLoop, at_, reapChildren, waited] at moved
  cases found : leaderOf ctx.jobs e.pid with
  | none =>
      rw [found] at moved
      cases moved
      rw [idle] at sends
      contradiction
  | some k =>
      obtain ⟨job, here, _⟩ := leaderOf_spec found
      simp only [found, here, leaderExit, jobSend, Option.map_eq_some_iff] at moved
      obtain ⟨job', _, rfl⟩ := moved
      exact sends

/-- Only the end of a leader is told as a failed exit. -/
theorem Sends.exits (sends : Sends w a ctx call) (sound : Sound ctx) {job' : Job}
    (moved : stepKernel w ctx a = some ⟨ctx.jobs.set call.index job', call.cancelRequested,
      some call.index, call.loop⟩)
    (is : call.ev = .leaderExitFail) :
    ∃ e, a.waited = some e ∧ leaderOf ctx.jobs e.pid = some call.index ∧
      (leaderExitEvent call.job e).1 = .leaderExitFail ∧
      call.pl.reason = some (sentReason w call.job e) := by
  cases sends with
  | leaderExit e j job rest idle at_ waited here leader =>
      exact ⟨e, waited, leaderOf_of_step moved idle at_ waited rfl, is, rfl⟩
  | owed j job ev sending here owes =>
      have kind := (startFailed_of_owed (sound.fits job (List.mem_of_getElem? here)) owes).1
      simp [kind] at is
  | sched ev evs job idle at_ here =>
      rcases sound.dueAt at_ here with ⟨_, kind | kind⟩ | ⟨_, kind⟩ <;> simp [kind] at is
  | lateTimer tag tags job ev idle at_ kind =>
      rcases kind with ⟨_, rfl⟩ | ⟨_, rfl⟩ <;> contradiction
  | _ => contradiction

theorem Sends.failedAt (sends : Sends w a ctx call) {i : Nat} {why : Option Reason}
    (failed : FailedAt call.read i why) : FailedAt call.job i why := by
  cases sends <;> exact failed

/-- In every run each failed step has a cause, if what is said of a leader's exit
holds wherever one is told as a failure. -/
theorem failure_has_cause {allowed : RunCtx → Answer → Prop} (said : JobSpec → Nat → Reason → Prop)
    (hears : ∀ (ctx : RunCtx) (a : Answer) (e : Exit) (j : Nat) (job : Job),
      allowed ctx a → a.waited = some e → leaderOf ctx.jobs e.pid = some j →
      ctx.jobs[j]? = some job → (leaderExitEvent job e).1 = .leaderExitFail →
      said job.spec job.cur (sentReason w job e))
    (reachable : (machine w).Reachable allowed ctx) :
    ∀ job ∈ ctx.jobs, ∀ i why, FailedAt job i why → Cause (said job.spec) job i why := by
  refine job_of_reachable ?_ ?_ reachable
  · rintro spec detail i why ⟨r, found, _⟩
    contradiction
  · intro ctx a call job' reachable ok sends moved sent before i why failed
    have sound := sound_of_reachable reachable
    have member : call.job ∈ ctx.jobs := List.mem_of_getElem? sends.here
    have kept : call.job.notes ⊆ job'.notes := (sends.career sound sent).notes
    have spec : job'.spec = call.job.spec := (dispatchOne_spec sent).1.trans sends.read_spec.1
    rw [spec]
    rcases failedAt_dispatchOne sent failed with old | ⟨here, fails⟩
    · exact (before i why (sends.failedAt old)).mono kept
    rw [sends.read_live.2] at here
    rw [sends.read_spec.2] at fails
    subst here
    refine Cause.mono ?_ kept
    generalize at_ : phase call.job.state = p at fails
    have accounted := accounted_of_reachable reachable member
    cases fails with
    | unspawned coe is =>
        have fits := sound.fits call.job member
        rw [Fits, at_] at fits
        have live : (phase call.job.view.state).live = true := by
          simp [Job.view, at_, Phase.live]
        obtain ⟨_, proc, _⟩ | forked := fits.forked
        · have spawned := accounted.shown.spawnedHere live
          simp only [Job.view, proc] at spawned
          exact .unspawned spawned
        · exact absurd forked.followup (by simp [sends.owes sound is])
    | exited coe is =>
        obtain ⟨e, waited, leads, failed, reason⟩ := sends.exits sound moved is
        rw [reason]
        exact .exited _ (hears ctx a e call.index call.job ok waited leads sends.here failed)
    | late coe signal signalled =>
        obtain ⟨j, there⟩ := List.mem_iff_getElem?.mp member
        have warned : Warned call.job.view :=
          (career_of_reachable reachable there).invariant (fun _ _ => warned_step)
            (.of_phase (by simp [View.initial, phase]))
        exact .timeout (warned coe signal at_ signalled)

end Causes

end Qwe.Kernel
