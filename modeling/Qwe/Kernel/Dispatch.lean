import Mathlib.Algebra.Order.BigOperators.Group.List
import Mathlib.Algebra.Order.Ring.Nat
import Qwe.Kernel.NoAbort
import Qwe.Kernel.Unstarted
import Qwe.Lib.Counting
import Qwe.Lib.Inevitable

/-!
# The dispatch loops end

`job_send` loops until its job waits for the outside world, `run_all` passes until
`qwe_sched_pass` has nothing to hand out, and goes back to it while the broadcast
told a job.  In these loops every call of `dispatch_one` takes its job down: the
weight of a job is the height of its phase, with what it is owed and whether it can
still be told of the cancel.  Between two calls the loops only move on, by their place.
-/

set_option autoImplicit false

namespace Qwe.Kernel

open Qwe.Lifecycle Qwe.Sched Qwe.Counting

/-! ## How far a job can still fall -/

/-- A job that moves on comes to a lower phase. -/
def height : Phase → Nat
  | .pending => 7
  | .ready => 6
  | .between => 4
  | .undecided _ _ => 2
  | .settling _ _ => 1
  | .final _ => 0

/-- Whether start-failed can be owed in the phase. -/
def mayOwe : Phase → Bool
  | .between => true
  | .undecided _ _ => true
  | _ => false

def Job.weight (job : Job) : Nat :=
  height (phase job.state) + job.followup.isSome.toNat + (!job.cancelTold).toNat

def RunCtx.weight (ctx : RunCtx) : Nat := (ctx.jobs.map Job.weight).sum

theorem weight_le (job : Job) : job.weight ≤ 9 := by
  have low : height (phase job.state) ≤ 7 := by
    cases phase job.state <;> simp [height]
  have owed := Bool.toNat_le job.followup.isSome
  have untold := Bool.toNat_le !job.cancelTold
  unfold Job.weight
  omega

theorem owed_le {job : Job} (fits : Fits job) :
    job.followup.isSome.toNat ≤ (mayOwe (phase job.state)).toNat := by
  cases owes : job.followup with
  | none => exact Nat.zero_le _
  | some ev =>
      obtain ⟨_, ⟨at_, _⟩ | ⟨coe, at_, _⟩⟩ := startFailed_of_owed fits owes
      · rw [at_]; exact Nat.le_refl _
      · rw [at_]; exact Nat.le_refl _

/-! ## What the calls of the loops do -/

section Moves
variable {a : Answer} {job job' : Job} {ev : Event} {pl : Payload} {evStep : Option Nat}

theorem phase_of_go {next : Phase} {kind : ReasonKind} {actions : List Action}
    (sent : dispatchOne a job ev pl evStep = some job')
    (fresh : eventIsStale job.state ev evStep job.liveStep = false)
    (moves : react pl.coe (phase job.state) ev = .go next kind actions) :
    phase job'.state = next := by
  obtain ⟨res, reached, _, rfl⟩ := dispatchOne_go sent fresh moves
  rw [(foldl_applyAction_frame a res actions (acted job ev res)).1, acted_state, reached]

/-- A job that still waits goes on, or is skipped for its needs. -/
theorem due_moves {grant : SchedEvent} {s : State} (due : grant.Due s) (coe : Bool) :
    ∃ next kind actions, react coe (phase s) grant.event = .go next kind actions ∧
      height next + (mayOwe next).toNat < height (phase s) := by
  rcases due with ⟨rfl, kind | kind⟩ | ⟨rfl, kind⟩
  · exact ⟨_, _, _, by rw [kind]; rfl, by simp [height, mayOwe, phase]⟩
  · exact ⟨_, _, _, by rw [kind]; rfl, by simp [height, mayOwe, phase]⟩
  · exact ⟨_, _, _, by rw [kind]; rfl, by simp [height, mayOwe, phase]⟩

theorem due_fresh {grant : SchedEvent} {s : State} (due : grant.Due s) (live : Option Nat) :
    eventIsStale s grant.event none live = false := by
  rcases due with ⟨_, kind | kind⟩ | ⟨_, kind⟩ <;> rw [kind] <;> rfl

/-- A cancel never takes a job up, and leaves nothing owed behind. -/
theorem cancel_moves (coe : Bool) (p : Phase) :
    (react coe p .cancel = .ignore ∧ mayOwe p = false) ∨
      ∃ next kind actions, react coe p .cancel = .go next kind actions ∧
        height next ≤ height p ∧ mayOwe next = false := by
  cases p with
  | undecided flag signal =>
      refine Or.inr ⟨.settling .cancelRequested signal.killed, .cancelRequested,
        teardown signal ++ [.recordStep], ?_, by simp [height], rfl⟩
      cases signal <;> rfl
  | settling verdict killed =>
      cases verdict with
      | cancelRequested => exact Or.inl ⟨rfl, rfl⟩
      | _ => exact Or.inr ⟨_, _, _, rfl, Nat.le_refl _, rfl⟩
  | final outcome => exact Or.inl ⟨rfl, rfl⟩
  | _ => exact Or.inr ⟨_, _, _, rfl, by simp [height], rfl⟩

/-- Where a cancel leaves a job that was owed nothing. -/
theorem height_of_cancel (sent : dispatchOne a job .cancel pl evStep = some job') :
    height (phase job'.state) ≤ height (phase job.state) ∧ mayOwe (phase job'.state) = false := by
  rcases cancel_moves pl.coe (phase job.state) with ⟨ignored, free⟩ |
    ⟨next, kind, actions, moves, low, free⟩
  · rw [dispatchOne_ignored sent rfl ignored, acted_state]
    exact ⟨Nat.le_refl _, free⟩
  · rw [phase_of_go sent rfl moves]
    exact ⟨low, free⟩

end Moves

section Calls
variable {w : Workflow} {a : Answer} {ctx : RunCtx} {call : Call}

/-- `run_all` broadcasts, makes a pass or sends its events. -/
def Loop.dispatches : Loop → Bool
  | .broadcast _ _ _ => true
  | .pass => true
  | .grants _ => true
  | _ => false

/-- `run_all` makes a pass or sends its events. -/
def Loop.passes : Loop → Bool
  | .pass => true
  | .grants _ => true
  | _ => false

/-- A round of `job_send` ends the job, or spawns its next step. -/
theorem Sends.round (sends : Sends w a ctx call) (sound : Sound ctx) (busy : ctx.sending ≠ none) :
    ∃ next kind actions,
      react call.pl.coe (phase call.read.state) call.ev = .go next kind actions ∧
      eventIsStale call.read.state call.ev call.evStep call.read.liveStep = false ∧
      ((∃ outcome, next = .final outcome) ∨
        (call.job.state = .betweenSteps ∧ call.job.followup = none ∧
          ∃ coe, next = .undecided coe .none)) := by
  cases sends with
  | owed j job ev sending here owes =>
      have fits : Fits job := sound.fits job (List.mem_of_getElem? here)
      obtain ⟨rfl, ⟨at_, _⟩ | ⟨coe, at_, _⟩⟩ := startFailed_of_owed fits owes
      · exact ⟨_, _, _, by rw [at_]; rfl, rfl, Or.inl ⟨_, rfl⟩⟩
      · exact ⟨_, _, _, by rw [at_]; rfl, rfl, Or.inl ⟨_, rfl⟩⟩
  | pollCancel j job sending here owed between =>
      exact ⟨_, _, _, by rw [between]; rfl, rfl, Or.inl ⟨_, rfl⟩⟩
  | pollTimeout j job sending here owed between =>
      exact ⟨_, _, _, by rw [readTimer_state, between]; rfl, by
        rw [readTimer_state, between]; rfl, Or.inl ⟨_, rfl⟩⟩
  | nextStep j job step sending here owed between =>
      exact ⟨_, _, _, by rw [between]; rfl, rfl, Or.inr ⟨between, owed, _, rfl⟩⟩
  | noMoreSteps j job sending here owed between =>
      exact ⟨_, _, _, by rw [between]; rfl, rfl, Or.inl ⟨_, rfl⟩⟩
  | _ => exact absurd (by assumption) busy

/-- The calls of the loops themselves: a job is told of the cancel, or sent what a
pass handed out for it. -/
theorem Sends.opens (sends : Sends w a ctx call) (idle : ctx.sending = none)
    (inside : ctx.loop.dispatches = true) :
    call.read = call.job ∧ call.evStep = none ∧
      ((call.ev = .cancel ∧ call.job.cancelTold = false) ∨
        ∃ grant evs, ctx.loop = .grants (grant :: evs) ∧ call.ev = grant.event ∧
          call.index = grant.job) := by
  cases sends with
  | cancel again i told job _ at_ requested here untold => exact ⟨rfl, rfl, Or.inl ⟨rfl, untold⟩⟩
  | sched grant evs job _ at_ => exact ⟨rfl, rfl, Or.inr ⟨grant, evs, at_, rfl, rfl⟩⟩
  | skip i job _ at_ => rw [at_] at inside; contradiction
  | stepTimer tag tags job _ at_ => rw [at_] at inside; contradiction
  | graceTimer tag tags job _ at_ => rw [at_] at inside; contradiction
  | lateTimer tag tags job ev _ at_ => rw [at_] at inside; contradiction
  | jobTimer tag tags job _ at_ => rw [at_] at inside; contradiction
  | lateJobTimer tag tags job _ at_ => rw [at_] at inside; contradiction
  | leaderExit e j job rest _ at_ => rw [at_] at inside; contradiction
  | groupEmpty i job rest _ at_ => rw [at_] at inside; contradiction
  | _ => simp_all

/-- Inside the loops no call is impossible. -/
theorem Sends.goes (sends : Sends w a ctx call) (sound : Sound ctx)
    (inside : ctx.sending ≠ none ∨ ctx.loop.dispatches = true) :
    ∃ job', dispatchOne a call.read call.ev call.pl call.evStep = some job' := by
  refine dispatchOne_ne_none fun _ => ?_
  by_cases busy : ctx.sending = none
  · obtain ⟨same, _, ⟨told, _⟩ | ⟨grant, evs, at_, granted, index⟩⟩ :=
      sends.opens busy (inside.resolve_left (· busy))
    · rw [told]
      exact possible_cancel _ _
    · have due := sound.dueAt at_ (index ▸ sends.here)
      obtain ⟨next, kind, actions, moves, _⟩ := due_moves due call.pl.coe
      rw [same, granted, moves]
      simp
  · obtain ⟨next, kind, actions, moves, _⟩ := sends.round sound busy
    rw [moves]
    simp

/-- Inside the loops every call takes its job down. -/
theorem Sends.lighter (sends : Sends w a ctx call) (sound : Sound ctx)
    (inside : ctx.sending ≠ none ∨ ctx.loop.dispatches = true) {job' : Job}
    (sent : dispatchOne a call.read call.ev call.pl call.evStep = some job') :
    job'.weight < call.job.weight := by
  have owed := owed_le (sends.fits sound sent)
  have untold : (!job'.cancelTold).toNat ≤ (!call.job.cancelTold).toNat := by
    cases told : call.job.cancelTold with
    | false => exact Bool.toNat_le _
    | true =>
        have stays := cancelTold_of_dispatch sent (Or.inl (sends.read_cancelTold.trans told))
        simp [stays]
  unfold Job.weight
  by_cases busy : ctx.sending = none
  · obtain ⟨same, plain, ⟨told, open_⟩ | ⟨grant, evs, at_, granted, index⟩⟩ :=
      sends.opens busy (inside.resolve_left (· busy))
    · rw [same, told] at sent
      obtain ⟨low, free⟩ := height_of_cancel sent
      rw [free, Bool.toNat_false] at owed
      rw [cancelTold_of_dispatch sent (Or.inr rfl), open_]
      simp only [Bool.not_true, Bool.toNat_false, Bool.not_false, Bool.toNat_true]
      omega
    · have due := sound.dueAt at_ (index ▸ sends.here)
      obtain ⟨next, kind, actions, moves, lower⟩ := due_moves due call.pl.coe
      rw [same, granted, plain] at sent
      rw [phase_of_go sent (due_fresh due _) moves] at owed ⊢
      omega
  · obtain ⟨next, kind, actions, moves, fresh, ends⟩ := sends.round sound busy
    rw [phase_of_go sent fresh moves] at owed ⊢
    rcases ends with ⟨outcome, rfl⟩ | ⟨between, _, coe, rfl⟩
    · rcases sends.looksAfter busy with owes | between
      · rw [owes]
        simp only [height, mayOwe, Bool.toNat_false, Bool.toNat_true] at owed ⊢
        omega
      · rw [between]
        simp only [height, mayOwe, phase, Bool.toNat_false] at owed ⊢
        omega
    · rw [between]
      simp only [height, mayOwe, phase, Bool.toNat_true] at owed ⊢
      omega

end Calls

/-! ## How far the loops are -/

/-- How many steps `run_all` can make before it calls `dispatch_one`, or leaves the
loops.  A broadcast that told a job leads back to a pass, and a pass that handed
something out to another one: both have taken a job down. -/
def Loop.place (jobs : Nat) : Loop → Nat
  | .broadcast again i sent => (if again && !sent then 0 else jobs + 3) + (jobs - i) + 1
  | .pass => jobs + 2
  | .grants [] => jobs + 3
  | _ => 0

def RunCtx.place (ctx : RunCtx) : Nat :=
  2 * ctx.loop.place ctx.jobs.length + ctx.sending.isSome.toNat

theorem place_lt (ctx : RunCtx) : ctx.place < 4 * ctx.jobs.length + 10 := by
  have low : ctx.loop.place ctx.jobs.length ≤ 2 * ctx.jobs.length + 4 := by
    unfold Loop.place
    split
    · split <;> omega
    all_goals omega
  have once := Bool.toNat_le ctx.sending.isSome
  unfold RunCtx.place
  omega

/-- A step inside the loops: it comes closer to their end, and leaves them only
there. -/
structure Closer (ctx ctx' : RunCtx) : Prop where
  jobs : ctx'.jobs.length = ctx.jobs.length
  lower : ctx'.weight < ctx.weight ∨ ctx'.weight = ctx.weight ∧ ctx'.place < ctx.place
  passing : ctx.loop.passes = true →
    (ctx'.sending = none ∧ ctx'.loop = .broadcast true 0 false) ∨ ctx'.loop.passes = true
  dispatching :
    (ctx'.sending = none ∧ ctx'.loop = .tally) ∨ ctx'.loop.dispatches = true

section Steps
variable {w : Workflow} {a : Answer} {ctx ctx' : RunCtx} {call : Call}

/-- A step that touches no job. -/
theorem Closer.of_quiet (jobs : ctx'.jobs = ctx.jobs) (nearer : ctx'.place < ctx.place)
    (passing : ctx.loop.passes = true →
      (ctx'.sending = none ∧ ctx'.loop = .broadcast true 0 false) ∨ ctx'.loop.passes = true)
    (dispatching : (ctx'.sending = none ∧ ctx'.loop = .tally) ∨ ctx'.loop.dispatches = true) :
    Closer ctx ctx' :=
  ⟨by rw [jobs], Or.inr ⟨by rw [RunCtx.weight, jobs, RunCtx.weight], nearer⟩, passing, dispatching⟩

/-- The loop moves on. -/
theorem Closer.of_move {loop : Loop} (idle : ctx.sending = none)
    (nearer : loop.place ctx.jobs.length < ctx.loop.place ctx.jobs.length)
    (passing : ctx.loop.passes = true → loop = .broadcast true 0 false ∨ loop.passes = true)
    (dispatching : loop = .tally ∨ loop.dispatches = true) :
    Closer ctx { ctx with loop := loop } := by
  refine .of_quiet rfl ?_ (fun at_ => (passing at_).imp_left fun same => ⟨idle, same⟩)
    (dispatching.imp_left fun same => ⟨idle, same⟩)
  simp only [RunCtx.place]
  omega

theorem pass_lt {again sent : Bool} (jobs i : Nat) (repeats : (again && !sent) = false) :
    Loop.pass.place jobs < (Loop.broadcast again i sent).place jobs := by
  simp only [Loop.place, repeats, Bool.false_eq_true, if_false]
  omega

theorem closer_quiet (quiet : Quiet w a ctx ctx') (inside : ctx.loop.dispatches = true)
    (noGrant : ctx.sending = none → ∀ grant evs, ctx.loop ≠ .grants (grant :: evs)) :
    Closer ctx ctx' := by
  have broadcasts : ∀ {again i sent}, ctx.loop = .broadcast again i sent →
      ctx.loop.passes ≠ true := by
    intro again i sent at_
    rw [at_]
    exact Bool.false_ne_true
  cases quiet with
  | sent j sending =>
      refine .of_quiet rfl ?_ (fun passing => Or.inr passing) (Or.inr inside)
      simp [RunCtx.place, sending]
  | cancelNext again i sent job idle at_ here told =>
      have inRange : i < ctx.jobs.length := (List.getElem?_eq_some_iff.mp here).1
      refine .of_move idle ?_ (fun at' => absurd at' (broadcasts at_)) (Or.inr rfl)
      rw [at_]
      simp only [Loop.place]
      omega
  | cancelNone again i sent idle at_ =>
      cases again with
      | true =>
          refine .of_move idle ?_ (fun at' => absurd at' (broadcasts at_)) (Or.inl rfl)
          rw [at_]
          exact Nat.succ_pos _
      | false =>
          refine .of_move idle ?_ (fun at' => absurd at' (broadcasts at_)) (Or.inr rfl)
          rw [at_]
          exact pass_lt _ i rfl
  | cancelDone again i sent idle at_ =>
      cases ended : again && !sent with
      | true =>
          rw [show afterBroadcast again sent = .tally by simp [afterBroadcast, ended]]
          refine .of_move idle ?_ (fun at' => absurd at' (broadcasts at_)) (Or.inl rfl)
          rw [at_]
          exact Nat.succ_pos _
      | false =>
          rw [show afterBroadcast again sent = .pass by simp [afterBroadcast, ended]]
          refine .of_move idle ?_ (fun at' => absurd at' (broadcasts at_)) (Or.inr rfl)
          rw [at_]
          exact pass_lt _ i ended
  | schedule idle at_ =>
      unfold Kernel.schedule
      split
      · refine .of_move idle ?_ (fun _ => Or.inl rfl) (Or.inr rfl)
        simp [at_, Loop.place]
      · refine .of_move idle ?_ (fun _ => Or.inr rfl) (Or.inr rfl)
        simp [at_, Loop.place]
  | grantGone ev evs idle at_ => exact absurd at_ (noGrant idle ev evs)
  | grantsDone idle at_ =>
      refine .of_move idle ?_ (fun _ => Or.inr rfl) (Or.inr rfl)
      simp [at_, Loop.place]
  | skipNext i _ at_ => rw [at_] at inside; contradiction
  | skipDone i _ at_ => rw [at_] at inside; contradiction
  | tally _ at_ => rw [at_] at inside; contradiction
  | wait _ at_ => rw [at_] at inside; contradiction
  | batchNext tag tags _ at_ => rw [at_] at inside; contradiction
  | batchChild tag tags _ at_ => rw [at_] at inside; contradiction
  | batchCancel tag tags _ at_ => rw [at_] at inside; contradiction
  | batchDone _ at_ => rw [at_] at inside; contradiction
  | orphan rest _ at_ => rw [at_] at inside; contradiction
  | reapDone rest _ at_ => rw [at_] at inside; contradiction
  | groupNext i rest _ at_ => rw [at_] at inside; contradiction
  | groupDone i rest _ at_ => rw [at_] at inside; contradiction
  | halted rc _ at_ => rw [at_] at inside; contradiction

/-- A call does not leave the loop it is made in. -/
theorem Sends.stays (sends : Sends w a ctx call) (inside : ctx.loop.dispatches = true) :
    call.loop.dispatches = true ∧ (ctx.loop.passes = true → call.loop.passes = true) := by
  rcases sends.sending with idle | ⟨_, same⟩
  · cases sends with
    | cancel again i sent job _ at_ => exact ⟨rfl, by simp [at_, Loop.passes]⟩
    | sched ev evs job _ at_ => exact ⟨rfl, fun _ => rfl⟩
    | skip i job _ at_ => rw [at_] at inside; contradiction
    | stepTimer tag tags job _ at_ => rw [at_] at inside; contradiction
    | graceTimer tag tags job _ at_ => rw [at_] at inside; contradiction
    | lateTimer tag tags job ev _ at_ => rw [at_] at inside; contradiction
    | jobTimer tag tags job _ at_ => rw [at_] at inside; contradiction
    | lateJobTimer tag tags job _ at_ => rw [at_] at inside; contradiction
    | leaderExit e j job rest _ at_ => rw [at_] at inside; contradiction
    | groupEmpty i job rest _ at_ => rw [at_] at inside; contradiction
    | _ => exact ⟨inside, id⟩
  · rw [same]
    exact ⟨inside, id⟩

/-- A call of the loops is carried out. -/
theorem Sends.performed (sends : Sends w a ctx call) (sound : Sound ctx)
    (inside : ctx.sending ≠ none ∨ ctx.loop.dispatches = true) :
    ∃ job', dispatchOne a call.read call.ev call.pl call.evStep = some job' ∧
      call.perform a ctx = some ⟨ctx.jobs.set call.index job', call.cancelRequested,
        some call.index, call.loop⟩ := by
  obtain ⟨job', sent⟩ := sends.goes sound inside
  refine ⟨job', sent, ?_⟩
  rw [Call.perform, jobSend, sent]
  rfl

theorem closer_step (sound : Sound ctx) (inside : ctx.loop.dispatches = true) (a : Answer) :
    ∃ ctx', stepKernel w ctx a = some ctx' ∧ Closer ctx ctx' := by
  have called : ∀ call, Sends w a ctx call → stepKernel w ctx a = call.perform a ctx →
      ∃ ctx', stepKernel w ctx a = some ctx' ∧ Closer ctx ctx' := by
    intro call sends result
    obtain ⟨job', sent, performed⟩ := sends.performed sound (Or.inr inside)
    refine ⟨_, result.trans performed, by simp, Or.inl ?_, ?_, ?_⟩
    · exact sum_set_lt Job.weight sends.here (sends.lighter sound (Or.inr inside) sent)
    · exact fun passing => Or.inr ((sends.stays inside).2 passing)
    · exact Or.inr (sends.stays inside).1
  by_cases granting : ctx.sending = none ∧ ∃ grant evs, ctx.loop = .grants (grant :: evs)
  · -- the job of the event is there: this step makes the call
    obtain ⟨idle, grant, evs, at_⟩ := granting
    obtain ⟨_, job, here, _⟩ := (sound.due _ at_).2 grant List.mem_cons_self
    refine called _ (Sends.sched grant evs job idle at_ here) ?_
    simp only [stepKernel, idle, runLoop, at_, sendGrants, here]
    rfl
  · rcases stepKernel_explained w ctx a with ⟨other, result, quiet⟩ | ⟨call, sends, result⟩
    · refine ⟨other, result, closer_quiet quiet inside fun idle grant evs at_ => ?_⟩
      exact granting ⟨idle, grant, evs, at_⟩
    · exact called call sends result

/-! ## The rounds of `job_send` -/

/-- How many more events `job_send` can send the job. -/
def Job.rounds (job : Job) : Nat :=
  if job.followup.isSome then 1 else if job.state = .betweenSteps then 2 else 0

def RunCtx.rounds (ctx : RunCtx) : Nat :=
  match ctx.sending with
  | none => 0
  | some j => ((ctx.jobs[j]?).map Job.rounds).getD 0 + 1

theorem rounds_le (ctx : RunCtx) : ctx.rounds ≤ 3 := by
  have few : ∀ job : Job, job.rounds ≤ 2 := by
    intro job
    unfold Job.rounds
    split
    · omega
    split <;> omega
  unfold RunCtx.rounds
  split
  · omega
  · rename_i j _
    cases ctx.jobs[j]? with
    | none => simp
    | some job => exact Nat.succ_le_succ (few job)

theorem rounds_of_calm {job : Job} (calm : Calm job) : job.rounds = 0 := by
  simp [Job.rounds, calm.owed, calm.apart]

/-- A round takes the job out of between-steps, for good. -/
theorem Sends.fewer (sends : Sends w a ctx call) (sound : Sound ctx) (busy : ctx.sending ≠ none)
    {job' : Job} (sent : dispatchOne a call.read call.ev call.pl call.evStep = some job') :
    job'.state ≠ .betweenSteps ∧ job'.rounds < call.job.rounds := by
  have fits := sends.fits sound sent
  obtain ⟨next, kind, actions, moves, fresh, ends⟩ := sends.round sound busy
  have reached := phase_of_go sent fresh moves
  rcases ends with ⟨outcome, rfl⟩ | ⟨between, owed, coe, rfl⟩
  · have apart : job'.state ≠ .betweenSteps := by
      intro between
      rw [between] at reached
      contradiction
    rw [Fits, reached] at fits
    refine ⟨apart, ?_⟩
    rw [rounds_of_calm ⟨Over.followup fits, apart⟩]
    rcases sends.looksAfter busy with owes | between
    · simp [Job.rounds, owes]
    · simp only [Job.rounds, between, if_true]
      split <;> omega
  · have apart : job'.state ≠ .betweenSteps := by
      intro between
      rw [between] at reached
      contradiction
    refine ⟨apart, ?_⟩
    simp only [Job.rounds, apart, between, owed, if_false, if_true, Option.isSome_none,
      Bool.false_eq_true]
    split <;> omega

/-- What `job_send` does with a job that is not yet waiting for the outside world. -/
theorem followUp_step (sound : Sound ctx) {j : Nat} {job : Job} (sending : ctx.sending = some j)
    (here : ctx.jobs[j]? = some job) (restless : ¬ Calm job) (a : Answer) :
    ∃ job' flag, stepKernel w ctx a = some ⟨ctx.jobs.set j job', flag, some j, ctx.loop⟩ ∧
      job'.state ≠ .betweenSteps ∧ job'.rounds < job.rounds := by
  have busy : ctx.sending ≠ none := by simp [sending]
  rcases stepKernel_explained w ctx a with ⟨other, _, quiet⟩ | ⟨call, sends, result⟩
  · cases quiet with
    | sent k there calm =>
        obtain rfl : j = k := Option.some.inj (sending.symm.trans there)
        exact absurd ⟨(calm job here).1, (calm job here).2⟩ restless
    | _ => exact absurd (by assumption) busy
  · obtain ⟨job', sent, performed⟩ := sends.performed sound (Or.inl busy)
    obtain ⟨apart, fewer⟩ := sends.fewer sound busy sent
    obtain ⟨mine, same⟩ := sends.sending.resolve_left busy
    obtain rfl : j = call.index := Option.some.inj (sending.symm.trans mine)
    obtain rfl : job = call.job := Option.some.inj (here.symm.trans sends.here)
    exact ⟨job', call.cancelRequested, by rw [result, performed, same], apart, fewer⟩

theorem rounds_step (sound : Sound ctx) (busy : ctx.sending ≠ none) (a : Answer) :
    ∃ ctx', stepKernel w ctx a = some ctx' ∧ ctx'.loop = ctx.loop ∧ ctx'.rounds < ctx.rounds := by
  obtain ⟨j, sending⟩ := Option.ne_none_iff_exists'.mp busy
  cases here : ctx.jobs[j]? with
  | none =>
      refine ⟨{ ctx with sending := none }, ?_, rfl, ?_⟩
      · simp [stepKernel, sending, here]
      · simp [RunCtx.rounds, sending]
  | some job =>
      by_cases calm : Calm job
      · refine ⟨{ ctx with sending := none }, ?_, rfl, ?_⟩
        · simp [stepKernel, sending, here, followUp, calm.owed, calm.apart]
        · simp [RunCtx.rounds, sending]
      · obtain ⟨job', flag, moved, _, fewer⟩ := followUp_step (w := w) sound sending here calm a
        refine ⟨_, moved, rfl, ?_⟩
        have inRange : j < ctx.jobs.length := (List.getElem?_eq_some_iff.mp here).1
        simp only [RunCtx.rounds, sending, here, List.getElem?_set_self inRange, Option.map_some,
          Option.getD_some]
        omega

end Steps

/-! ## The cancel is told once -/

/-- The entry is of a cancel the job was sent. -/
def Note.cancels : Note → Bool
  | .told .cancel _ _ _ => true
  | _ => false

theorem cancels_told (ev : Event) (live : Option Nat) (before after : State) :
    (Note.told ev live before after).cancels = (ev == .cancel) := by
  cases ev <;> rfl

/-- How often the job was told of the cancel. -/
def cancels (job : Job) : Nat := (noted Note.cancels job).length

/-- The flag says whether the job was told. -/
def ToldOnce (job : Job) : Prop := cancels job = job.cancelTold.toNat

theorem silent_cancels (action : Action) (entry : Note) (written : writes action entry = true) :
    entry.cancels = false := by
  cases entry with
  | told ev live before after => cases action <;> contradiction
  | _ => rfl

theorem cancelTold_of_other {a : Answer} {job job' : Job} {ev : Event} {pl : Payload}
    {evStep : Option Nat} (sent : dispatchOne a job ev pl evStep = some job')
    (other : ev ≠ .cancel) : job'.cancelTold = job.cancelTold := by
  have flag : (job.cancelTold || ev == .cancel) = job.cancelTold := by
    rw [beq_eq_false_iff_ne.mpr other, Bool.or_false]
  rcases dispatchOne_cases sent with ⟨_, rfl⟩ | ⟨_, ⟨_, rfl⟩ | ⟨res, _, _, rfl⟩⟩
  · rfl
  · rw [cancelTold_acted, flag]
  · rw [cancelTold_foldl, cancelTold_acted, flag]

/-- What a call adds to the history: its event, unless it was stale. -/
theorem noted_of_dispatch {a : Answer} {job job' : Job} {ev : Event} {pl : Payload}
    {evStep : Option Nat} (sent : dispatchOne a job ev pl evStep = some job') :
    (eventIsStale job.state ev evStep job.liveStep = true ∧ job' = job) ∨
      ∃ after, noted Note.cancels job' =
        noted Note.cancels (job.note (.told ev job.liveStep job.state after)) := by
  rcases dispatchOne_cases sent with stale | ⟨_, ⟨_, rfl⟩ | ⟨res, _, _, rfl⟩⟩
  · exact Or.inl stale
  · exact Or.inr ⟨_, noted_acted _ job ev fun _ => rfl⟩
  · refine Or.inr ⟨res.next, ?_⟩
    rw [noted_foldl a res _ fun action _ => silent_cancels action]
    exact noted_acted res job ev fun _ => rfl

section Told
variable {w : Workflow} {a : Answer} {ctx : RunCtx} {call : Call}

theorem toldOnce_initial (spec : JobSpec) (detail : Option String) :
    ToldOnce (Job.initial spec detail) := rfl

/-- Both places that send the cancel have seen that the job was not told. -/
theorem Sends.untold (sends : Sends w a ctx call) (sound : Sound ctx) (told : call.ev = .cancel) :
    call.job.cancelTold = false := by
  have fits : Fits call.job := sound.fits _ (List.mem_of_getElem? sends.here)
  cases sends with
  | cancel again i sent job _ _ _ _ untold => exact untold
  | pollCancel j job _ _ _ _ untold => exact untold
  | sched grant evs job _ at_ here =>
      rcases sound.dueAt at_ here with ⟨_, kind | kind⟩ | ⟨_, kind⟩ <;>
        exact absurd (kind.symm.trans told) (by simp)
  | owed j job ev _ here owes =>
      exact absurd ((startFailed_of_owed fits owes).1.symm.trans told) (by simp)
  | lateTimer tag tags job ev _ _ kind =>
      rcases kind with ⟨_, rfl⟩ | ⟨_, rfl⟩ <;> contradiction
  | leaderExit e j job =>
      rcases leaderExitEvent_exits job e with exit | exit <;>
        exact absurd (exit.symm.trans told) (by simp)
  | _ => contradiction

theorem Sends.read_cancels (sends : Sends w a ctx call) :
    noted Note.cancels call.read = noted Note.cancels call.job := by
  cases sends <;> rfl

theorem Sends.toldOnce (sends : Sends w a ctx call) (sound : Sound ctx) {job' : Job}
    (sent : dispatchOne a call.read call.ev call.pl call.evStep = some job')
    (once : ToldOnce call.job) : ToldOnce job' := by
  rw [ToldOnce, cancels] at once ⊢
  by_cases told : call.ev = .cancel
  · have untold := sends.untold sound told
    rw [cancelTold_of_dispatch sent (Or.inr told)]
    rcases noted_of_dispatch sent with ⟨stale, _⟩ | ⟨after, history⟩
    · rw [told] at stale
      contradiction
    · rw [history, told]
      rw [untold, ← sends.read_cancels] at once
      change (_ :: noted Note.cancels call.read).length = 1
      rw [List.length_cons, once]
      rfl
  · rw [cancelTold_of_other sent told, sends.read_cancelTold]
    rcases noted_of_dispatch sent with ⟨_, rfl⟩ | ⟨after, history⟩
    · rw [sends.read_cancels, once]
    · rw [history, noted_note, sends.read_cancels, once]
      rw [cancels_told]
      exact beq_eq_false_iff_ne.mpr told

theorem toldOnce_of_reachable {allowed : RunCtx → Answer → Prop}
    (reachable : (machine w).Reachable allowed ctx) : ∀ job ∈ ctx.jobs, ToldOnce job := by
  refine job_of_reachable toldOnce_initial ?_ reachable
  intro s a call job' reachable _ sends _ sent once
  exact sends.toldOnce (sound_of_reachable reachable) sent once

end Told

/-! ## The loops -/

instance : Nonempty Answer := ⟨.calm⟩

/-- A bound on the steps `run_all` makes with so many jobs before it counts them. -/
def dispatchSteps (jobs : Nat) : Nat := (9 * jobs + 1) * (4 * jobs + 10)

theorem rank_le (ctx : RunCtx) :
    ctx.weight * (4 * ctx.jobs.length + 10) + ctx.place ≤ dispatchSteps ctx.jobs.length := by
  have weight : ctx.weight ≤ 9 * ctx.jobs.length := by
    have each : ∀ n ∈ ctx.jobs.map Job.weight, n ≤ 9 := by
      intro n member
      obtain ⟨job, _, rfl⟩ := List.mem_map.mp member
      exact weight_le job
    have total := List.sum_le_card_nsmul _ 9 each
    rw [List.length_map, Nat.nsmul_eq_mul, Nat.mul_comm] at total
    exact total
  have scaled := Nat.mul_le_mul_right (4 * ctx.jobs.length + 10) weight
  have place := place_lt ctx
  rw [dispatchSteps, Nat.add_mul, Nat.one_mul]
  omega

section Ends
variable {w : Workflow} {ctx : RunCtx}

/-- A part of the dispatch loops that every step stays in, or leaves at the goal. -/
theorem inevitable_inside {goal : RunCtx → Prop} {part : Loop → Bool}
    (inside : ∀ loop, part loop = true → loop.dispatches = true)
    (leaves : ∀ before after : RunCtx, Closer before after → part before.loop = true →
      goal after ∨ part after.loop = true)
    (sound : Sound ctx) (at_ : part ctx.loop = true) :
    (machine w).Inevitable goal (dispatchSteps ctx.jobs.length) ctx := by
  refine Machine.Inevitable.mono (rank_le ctx) ?_
  refine Machine.inevitable_of_rank
    (fun later => Sound later ∧ later.jobs.length = ctx.jobs.length ∧
      (goal later ∨ part later.loop = true)) RunCtx.weight RunCtx.place ?_ ?_
    ⟨sound, rfl, Or.inr at_⟩
  · intro later holds
    have small := place_lt later
    rw [holds.2.1] at small
    exact small
  · intro later holds unmet a
    obtain ⟨sound, jobs, ends⟩ := holds
    have here := ends.resolve_left unmet
    obtain ⟨after, moved, closer⟩ := closer_step sound (inside _ here) a
    exact ⟨after, moved, ⟨sound_step sound moved, closer.jobs.trans jobs,
      leaves later after closer here⟩, closer.lower⟩

theorem passes_dispatch (loop : Loop) (passes : loop.passes = true) : loop.dispatches = true := by
  cases loop <;> first | rfl | contradiction

theorem inevitable_return (sound : Sound ctx) :
    (machine w).Inevitable (fun later => later.sending = none ∧ later.loop = ctx.loop ∧
      ∀ job ∈ later.jobs, Calm job) 3 ctx := by
  refine Machine.Inevitable.mono (rounds_le ctx) ?_
  refine Machine.inevitable_of_measure (fun later => Sound later ∧ later.loop = ctx.loop)
    RunCtx.rounds ?_ ⟨sound, rfl⟩
  intro later holds unmet a
  obtain ⟨sound, same⟩ := holds
  have busy : later.sending ≠ none := by
    intro idle
    refine unmet ⟨idle, same, fun job member => ?_⟩
    obtain ⟨j, there⟩ := List.mem_iff_getElem?.mp member
    exact sound.calm j job there (by simp [idle])
  obtain ⟨after, moved, kept, fewer⟩ := rounds_step sound busy a
  exact ⟨after, moved, ⟨sound_step sound moved, kept.trans same⟩, fewer⟩

/-- An event of a pass moves its job on. -/
theorem grant_advances (sound : Sound ctx) (idle : ctx.sending = none) {grant : SchedEvent}
    {evs : List SchedEvent} (at_ : ctx.loop = .grants (grant :: evs)) (a : Answer) :
    ∃ job job', ctx.jobs[grant.job]? = some job ∧
      stepKernel w ctx a = some ⟨ctx.jobs.set grant.job job', ctx.cancelRequested,
        some grant.job, .grants evs⟩ ∧
      height (phase job'.state) < height (phase job.state) := by
  obtain ⟨_, job, here, due⟩ := (sound.due _ at_).2 grant List.mem_cons_self
  have inside : ctx.sending ≠ none ∨ ctx.loop.dispatches = true := by
    rw [at_]
    exact Or.inr rfl
  obtain ⟨job', sent, performed⟩ :=
    (Sends.sched (w := w) (a := a) grant evs job idle at_ here).performed sound inside
  obtain ⟨next, kind, actions, moves, lower⟩ := due_moves due Payload.none.coe
  refine ⟨job, job', here, ?_, ?_⟩
  · rw [← performed]
    simp only [stepKernel, idle, runLoop, at_, sendGrants, here]
    rfl
  · rw [phase_of_go sent (due_fresh due _) moves]
    omega

/-- The one job between two steps leaves them with its next event. -/
theorem between_leaves (reachable : (machine w).Reachable Machine.Any ctx) {j : Nat} {job : Job}
    (here : ctx.jobs[j]? = some job) (between : job.state = .betweenSteps) :
    ctx.sending = some j ∧ ctx.loop.rests = false ∧
      ∀ a, ∃ ctx' job', stepKernel w ctx a = some ctx' ∧ ctx'.loop = ctx.loop ∧
        ctx'.jobs[j]? = some job' ∧ job'.state ≠ .betweenSteps := by
  have sound := sound_of_reachable reachable
  have restless : ¬ Calm job := fun calm => calm.apart between
  have sending : ctx.sending = some j := by
    by_contra other
    exact restless (sound.calm j job here other)
  refine ⟨sending, ?_, fun a => ?_⟩
  · by_contra rests
    have idle := ((heard_of_reachable reachable).resting (by simpa using rests)).1
    rw [sending] at idle
    contradiction
  · obtain ⟨job', flag, moved, apart, _⟩ := followUp_step (w := w) sound sending here restless a
    have inRange : j < ctx.jobs.length := (List.getElem?_eq_some_iff.mp here).1
    exact ⟨_, job', moved, rfl, List.getElem?_set_self inRange, apart⟩

end Ends

/-- The loops of the dispatch end, whatever the outside world answers. -/
structure LoopsEnd (w : Workflow) (ctx : RunCtx) : Prop where
  /-- `job_send` sends at most two more events and returns; the jobs wait for the
  outside world, and `run_all` stands where it stood -/
  followUps : ctx.sending ≠ none →
    (machine w).Inevitable (fun later => later.sending = none ∧ later.loop = ctx.loop ∧
      ∀ job ∈ later.jobs, Calm job) 3 ctx
  /-- a pass hands out nothing -/
  passes : ctx.loop.passes = true →
    (machine w).Inevitable (fun later => later.sending = none ∧ later.loop = .broadcast true 0 false)
      (dispatchSteps ctx.jobs.length) ctx
  /-- a broadcast tells no job -/
  repeats : ctx.loop.dispatches = true →
    (machine w).Inevitable (fun later => later.sending = none ∧ later.loop = .tally)
      (dispatchSteps ctx.jobs.length) ctx
  advances : ctx.sending = none → ∀ grant evs, ctx.loop = .grants (grant :: evs) → ∀ a,
    ∃ job job', ctx.jobs[grant.job]? = some job ∧
      stepKernel w ctx a = some ⟨ctx.jobs.set grant.job job', ctx.cancelRequested,
        some grant.job, .grants evs⟩ ∧
      height (phase job'.state) < height (phase job.state)
  toldOnce : ∀ job ∈ ctx.jobs, cancels job ≤ 1
  leaves : ∀ (j : Nat) (job : Job), ctx.jobs[j]? = some job → job.state = .betweenSteps →
    ctx.sending = some j ∧ ctx.loop.rests = false ∧
      ∀ a, ∃ ctx' job', stepKernel w ctx a = some ctx' ∧ ctx'.loop = ctx.loop ∧
        ctx'.jobs[j]? = some job' ∧ job'.state ≠ .betweenSteps

theorem dispatch_loops_end {w : Workflow} {ctx : RunCtx}
    (reachable : (machine w).Reachable Machine.Any ctx) : LoopsEnd w ctx where
  followUps _ := inevitable_return (sound_of_reachable reachable)
  passes at_ := by
    refine inevitable_inside passes_dispatch ?_ (sound_of_reachable reachable) at_
    exact fun before after closer passing => closer.passing passing
  repeats at_ := by
    refine inevitable_inside (fun _ => id) ?_ (sound_of_reachable reachable) at_
    exact fun before after closer _ => closer.dispatching
  advances idle grant evs at_ a := grant_advances (sound_of_reachable reachable) idle at_ a
  toldOnce job member := by
    have once := toldOnce_of_reachable reachable job member
    rw [ToldOnce] at once
    rw [once]
    exact Bool.toNat_le _
  leaves j job here between := between_leaves reachable here between

/-- The first of two jobs has been granted its slot, the second one's is to come. -/
theorem dispatch_loops_end_granted : ∃ ctx : RunCtx,
    ctx.sending = some 0 ∧ ctx.loop.passes = true ∧
      LoopsEnd (localJobs ["one", "two"] false) ctx := by
  obtain ⟨ctx, run, test⟩ : ∃ ctx,
      (machine (localJobs ["one", "two"] false)).Reachable Machine.Any ctx ∧
        (ctx.sending == some 0 && ctx.loop.passes) = true :=
    Machine.exists_run_of_replay (fun _ _ => true) (fun _ _ _ => trivial) firstStarted
      (fun ctx : RunCtx => ctx.sending == some 0 && ctx.loop.passes) (by decide)
  rw [Bool.and_eq_true, beq_iff_eq] at test
  exact ⟨ctx, test.1, test.2, dispatch_loops_end run⟩

end Qwe.Kernel
