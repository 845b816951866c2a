import Qwe.Kernel.Limits
import Qwe.Lib.Graph

/-!
# The run never stalls

A pass that returns nothing has found every ready job held back by a limit and
every pending job behind a need that is not final.  With no job running the
limits hold nobody back, and without a cycle some job that is not final has only
final needs, so the pass of `run_all` returns something.
-/

set_option autoImplicit false

/-! ## Passes that return nothing -/

namespace Qwe.Sched

open Qwe.Lifecycle

theorem needsEvent_of_final {jobs : List SchedJob} {i : Nat} {job : SchedJob}
    (pending : job.state = .pending) (final : ∀ k ∈ job.needs, (stateAt jobs k).isFinal = true) :
    ∃ ev, needsEvent jobs i job = some ev := by
  have all : ((job.needs.map (stateAt jobs)).all (·.isFinal)) = true := by
    rw [List.all_map, List.all_eq_true]
    exact final
  simp only [needsEvent, pending, all]
  exact ⟨_, rfl⟩

/-- Without an event every pending job has a need that is not final. -/
theorem unfinished_of_needsEvents {jobs : List SchedJob} (none_ : needsEvents jobs = []) {i : Nat}
    {job : SchedJob} (here : jobs[i]? = some job) (pending : job.state = .pending) :
    ∃ k ∈ job.needs, (stateAt jobs k).isFinal = false := by
  by_contra settled
  simp only [not_exists, not_and, Bool.not_eq_false] at settled
  obtain ⟨ev, given⟩ := needsEvent_of_final (i := i) pending settled
  have member : ev ∈ needsEvents jobs :=
    List.mem_filterMap.mpr ⟨(job, i), List.mem_zipIdx_iff_getElem?.mpr here, given⟩
  rw [none_] at member
  contradiction

/-- Without a grant every ready job met a full limit. -/
theorem full_of_grantLoop {jobs : List SchedJob} {maxParallel : Nat} {caps : List Nat}
    {running : Nat} {rest : List (SchedJob × Nat)}
    (none_ : grantLoop jobs maxParallel caps running rest [] = []) :
    ∀ entry ∈ rest, entry.1.state = .ready → (0 < maxParallel ∧ maxParallel ≤ running) ∨
      (entry.1.group ≠ 0 ∧
        caps.getD (entry.1.group - 1) 0 ≤ groupUsed jobs entry.1.group []) := by
  induction rest with
  | nil => simp
  | cons first rest ih =>
      intro entry member ready
      simp only [grantLoop] at none_
      split at none_
      · rename_i other
        rcases List.mem_cons.mp member with rfl | member
        · exact absurd ready other
        · exact ih none_ entry member ready
      split at none_
      · rename_i full
        exact Or.inl full
      split at none_
      · rename_i full
        rcases List.mem_cons.mp member with rfl | member
        · exact Or.inr full
        · exact ih none_ entry member ready
      · obtain ⟨places, _, _, result⟩ :=
          grantLoop_spec jobs maxParallel caps running rest ([] ++ [⟨first.2, .slotGranted⟩])
        rw [result] at none_
        simp at none_

theorem schedPass_eq_nil {jobs : List SchedJob} {maxParallel : Nat} {caps : List Nat}
    (none_ : schedPass jobs maxParallel caps = []) :
    needsEvents jobs = [] ∧
      grantLoop jobs maxParallel caps (jobs.countP (·.state.isRunning)) jobs.zipIdx [] = [] := by
  simp only [schedPass] at none_
  split at none_
  · rename_i some_
    rw [none_] at some_
    contradiction
  · rename_i none'
    exact ⟨List.length_eq_zero_iff.mp (Nat.eq_zero_of_not_pos none'), none_⟩

end Qwe.Sched

namespace Qwe.Kernel

open Qwe.Lifecycle Qwe.Sched Qwe.Counting

/-! ## The needs graph -/

/-- Job `i` needs job `k`. -/
def Workflow.Needs (w : Workflow) (i k : Nat) : Prop :=
  ∃ spec, w.jobs[i]? = some spec ∧ k ∈ w.needsIdx spec

structure Workflow.Acyclic (w : Workflow) : Prop where
  /-- every need names a job -/
  known : ∀ spec ∈ w.jobs, ∀ id ∈ spec.needs, (findJob w.jobs id).isSome = true
  noCycle : ∀ i, ¬ Relation.TransGen w.Needs i i

theorem Workflow.Acyclic.inRange {w : Workflow} (acyclic : w.Acyclic) {i k : Nat}
    (needs : w.Needs i k) : k < w.jobs.length := by
  obtain ⟨spec, place, member⟩ := needs
  obtain ⟨id, need, rfl⟩ := List.mem_map.mp member
  obtain ⟨k, found⟩ :=
    Option.isSome_iff_exists.mp (acyclic.known spec (List.mem_of_getElem? place) id need)
  rw [found, Option.getD_some]
  exact (List.findIdx?_eq_some_iff_findIdx_eq.mp found).1

/-- A workflow whose jobs only need earlier ones. -/
theorem Workflow.acyclic_of_order {w : Workflow}
    (order : ∀ i spec, w.jobs[i]? = some spec → ∀ k ∈ w.needsIdx spec, k < i) : w.Acyclic where
  known := by
    intro spec member id need
    obtain ⟨i, place⟩ := List.mem_iff_getElem?.mp member
    have inRange : i < w.jobs.length := (List.getElem?_eq_some_iff.mp place).1
    have before := order i spec place _ (List.mem_map.mpr ⟨id, need, rfl⟩)
    by_contra unknown
    rw [Bool.not_eq_true, Option.isSome_eq_false_iff, Option.isNone_iff_eq_none] at unknown
    rw [unknown, Option.getD_none] at before
    omega
  noCycle := by
    have descends : ∀ {i k : Nat}, Relation.TransGen w.Needs i k → k < i := by
      intro i k path
      induction path with
      | single step =>
          obtain ⟨spec, place, member⟩ := step
          exact order _ spec place _ member
      | tail _ step ih =>
          obtain ⟨spec, place, member⟩ := step
          exact Nat.lt_trans (order _ spec place _ member) ih
    exact fun i path => Nat.lt_irrefl i (descends path)

/-- The state of job `k`, `pending` past the end. -/
def RunCtx.stateOf (ctx : RunCtx) (k : Nat) : State := ((ctx.jobs[k]?).map (·.state)).getD .pending

theorem RunCtx.stateOf_of_getElem? {ctx : RunCtx} {k : Nat} {job : Job}
    (here : ctx.jobs[k]? = some job) : ctx.stateOf k = job.state := by
  rw [RunCtx.stateOf, here]
  rfl

theorem exists_of_states {ctx : RunCtx} {states : List State}
    (are : ctx.jobs.map (·.state) = states) {i : Nat} {s : State} (here : states[i]? = some s) :
    ∃ job, ctx.jobs[i]? = some job ∧ job.state = s := by
  rw [← are, List.getElem?_map, Option.map_eq_some_iff] at here
  exact here

section Pass
variable {w : Workflow} {ctx : RunCtx}

theorem stateAt_schedJobs (w : Workflow) (ctx : RunCtx) (k : Nat) :
    stateAt (ctx.schedJobs w) k = ctx.stateOf k := by
  simp only [stateAt, RunCtx.stateOf, RunCtx.schedJobs, List.getElem?_mapIdx, Option.map_map]
  rfl

theorem getElem?_schedJobs (w : Workflow) {k : Nat} {job : Job} (here : ctx.jobs[k]? = some job) :
    (ctx.schedJobs w)[k]? = some ⟨job.state, w.needsIdx job.spec, w.groups.getD k 0⟩ := by
  rw [RunCtx.schedJobs, List.getElem?_mapIdx, here]
  rfl

/-- A limit that keeps a job of the target from starting. -/
def Full (w : Workflow) (ctx : RunCtx) (target : String) : Prop :=
  (0 < w.parallel ∧ w.parallel ≤ ctx.jobs.countP (·.state.isRunning)) ∨
    (target ≠ "local" ∧ w.targetMaxSessions target ≤
      ctx.jobs.countP fun other => other.spec.target == target && other.state.isRunning)

/-- The pass returns no event. -/
def Exhausted (w : Workflow) (ctx : RunCtx) : Prop :=
  schedPass (ctx.schedJobs w) w.parallel w.caps = []

theorem full_of_exhausted (reachable : (machine w).Reachable Machine.Any ctx)
    (exhausted : Exhausted w ctx) {k : Nat} {job : Job} (here : ctx.jobs[k]? = some job)
    (ready : job.state = .ready) : Full w ctx job.spec.target := by
  have place := specAt reachable here
  have entry : (⟨job.state, w.needsIdx job.spec, w.groups.getD k 0⟩, k) ∈ (ctx.schedJobs w).zipIdx :=
    List.mem_zipIdx_iff_getElem?.mpr (getElem?_schedJobs w here)
  have full := full_of_grantLoop (schedPass_eq_nil exhausted).2 _ entry ready
  rw [running_eq_load, groupUsed, groupRunning_eq_load] at full
  rcases full with ⟨limited, full⟩ | ⟨grouped, full⟩
  · left
    rw [countP_eq_countAt]
    refine ⟨limited, Nat.le_trans full (countAt_mono fun _ _ _ counted => ?_)⟩
    simpa using counted
  · right
    simp only at grouped full
    by_cases remote : job.spec.target = "local"
    · rw [Workflow.groups, List.getD_eq_getElem?_getD, groupJobs_local _ place remote] at grouped
      contradiction
    · obtain ⟨group, _, cap, members⟩ := exists_group w remote place rfl
      have mine : w.groups.getD k 0 = group := by
        simpa [inGroup] using (members k job.spec place).mpr rfl
      rw [mine, cap, load_inGroup reachable members] at full
      exact ⟨remote, full⟩

theorem unfinished_of_exhausted (reachable : (machine w).Reachable Machine.Any ctx)
    (exhausted : Exhausted w ctx) {i : Nat} {job : Job} (here : ctx.jobs[i]? = some job)
    (pending : job.state = .pending) : ∃ k, w.Needs i k ∧ (ctx.stateOf k).isFinal = false := by
  obtain ⟨k, need, unfinished⟩ :=
    unfinished_of_needsEvents (schedPass_eq_nil exhausted).1 (getElem?_schedJobs w here) pending
  rw [stateAt_schedJobs] at unfinished
  exact ⟨k, ⟨job.spec, specAt reachable here, need⟩, unfinished⟩

/-- Every target used takes at least one session. -/
def Workflow.Admits (w : Workflow) : Prop :=
  ∀ spec ∈ w.jobs, spec.target ≠ "local" → 1 ≤ w.targetMaxSessions spec.target

theorem not_exhausted (acyclic : w.Acyclic) (admits : w.Admits)
    (reachable : (machine w).Reachable Machine.Any ctx)
    (left : ∃ job ∈ ctx.jobs, job.state.isFinal = false)
    (still : ∀ job ∈ ctx.jobs, job.state.isRunning = false) : ¬ Exhausted w ctx := by
  intro exhausted
  obtain ⟨job₀, member₀, left₀⟩ := left
  obtain ⟨i₀, here₀⟩ := List.mem_iff_getElem?.mp member₀
  have inRange₀ : i₀ < w.jobs.length :=
    (List.getElem?_eq_some_iff.mp (specAt reachable here₀)).1
  -- a job that is not final, with nothing but final needs
  obtain ⟨m, inRange, unfinished, needs⟩ := Graph.exists_last_below acyclic.noCycle
    (P := fun k => (ctx.stateOf k).isFinal = false) inRange₀
    (by rw [RunCtx.stateOf_of_getElem? here₀]; exact left₀)
  obtain ⟨job, here⟩ := jobAt reachable inRange
  rw [RunCtx.stateOf_of_getElem? here] at unfinished
  have member := List.mem_of_getElem? here
  have idle : ∀ p : Job → Bool, ctx.jobs.countP (fun other => p other && other.state.isRunning) = 0 :=
    fun p => List.countP_eq_zero.mpr fun other there => by simp [still other there]
  have waits : Waits job.state := by
    rw [waits_iff]
    by_contra started
    rw [not_or] at started
    have running := (isRunning_iff job.state).mpr ⟨started.1, started.2, fun outcome final => by
      rw [(isFinal_iff _).mpr ⟨outcome, final⟩] at unfinished
      contradiction⟩
    rw [still job member] at running
    contradiction
  rcases waits with pending | ready
  · obtain ⟨k, need, open_⟩ := unfinished_of_exhausted reachable exhausted here pending
    exact needs k (acyclic.inRange need) need open_
  · rcases full_of_exhausted reachable exhausted here ready with ⟨limited, full⟩ | ⟨remote, full⟩
    · have none_ := idle fun _ => true
      simp only [Bool.true_and] at none_
      omega
    · have cap := admits job.spec (List.mem_of_getElem? (specAt reachable here)) remote
      rw [idle] at full
      omega

end Pass

/-! ## Counting comes after an empty pass -/

/-- Before the jobs are counted the last pass returned nothing and the broadcast
that followed told nobody. -/
structure Drained (w : Workflow) (ctx : RunCtx) : Prop where
  broadcasting : ∀ i, ctx.loop = .broadcast true i false → ctx.sending = none ∧ Exhausted w ctx
  /-- only a cancel that was read is told -/
  telling : ∀ again i, ctx.loop = .broadcast again i true → ctx.cancelRequested = true
  counting : ctx.loop = .tally → ctx.sending = none ∧ Exhausted w ctx
  halted : ∀ rc, ctx.loop = .halted rc → rc = 0

section Drained
variable {w : Workflow} {a : Answer} {ctx ctx' : RunCtx} {call : Call}

/-- Loops in which nothing is claimed. -/
theorem Drained.of_busy (notBroadcasting : ∀ again i sent, ctx.loop ≠ .broadcast again i sent)
    (notCounting : ctx.loop ≠ .tally) (notHalted : ∀ rc, ctx.loop ≠ .halted rc) : Drained w ctx :=
  ⟨fun i at_ => absurd at_ (notBroadcasting true i false),
    fun again i at_ => absurd at_ (notBroadcasting again i true),
    fun at_ => absurd at_ notCounting, fun rc at_ => absurd at_ (notHalted rc)⟩

theorem drained_initial (w : Workflow) : Drained w (RunCtx.initial w) :=
  Drained.of_busy (by simp [RunCtx.initial]) (by simp [RunCtx.initial]) (by simp [RunCtx.initial])

/-- After a broadcast. -/
theorem Drained.of_told {again sent : Bool} (idle : ctx.sending = none)
    (exhausted : again = true → sent = false → Exhausted w ctx) :
    Drained w { ctx with loop := afterBroadcast again sent } := by
  unfold afterBroadcast
  split
  · rename_i nobody
    simp only [Bool.and_eq_true, Bool.not_eq_true'] at nobody
    exact ⟨by simp, by simp, fun _ => ⟨idle, exhausted nobody.1 nobody.2⟩, by simp⟩
  · exact Drained.of_busy (by simp) (by simp) (by simp)

theorem drained_quiet (drained : Drained w ctx)
    (tallied : ctx.loop = .tally → Drained w (Kernel.tally ctx)) (quiet : Quiet w a ctx ctx') :
    Drained w ctx' := by
  cases quiet with
  | sent j sending =>
      exact ⟨fun i at_ => ⟨rfl, (drained.broadcasting i at_).2⟩, drained.telling,
        fun at_ => ⟨rfl, (drained.counting at_).2⟩, drained.halted⟩
  | skipDone i idle at_ => exact ⟨by simp, by simp, by simp, by simp⟩
  | batchDone idle at_ => exact ⟨by simp, by simp, by simp, by simp⟩
  | cancelNext again i sent job idle at_ here told =>
      refine ⟨fun _ next => ?_, fun _ _ next => ?_, by simp, by simp⟩
      · cases next
        exact drained.broadcasting i at_
      · cases next
        exact drained.telling again i at_
  | cancelNone again i sent idle at_ calm =>
      refine Drained.of_told idle fun repeated _ => ?_
      subst repeated
      cases sent with
      | false => exact (drained.broadcasting i at_).2
      | true =>
          rw [drained.telling true i at_] at calm
          contradiction
  | cancelDone again i sent idle at_ requested past =>
      refine Drained.of_told idle fun repeated nobody => ?_
      subst repeated nobody
      exact (drained.broadcasting i at_).2
  | schedule idle at_ =>
      unfold Kernel.schedule
      split
      · rename_i none_
        exact ⟨fun _ _ => ⟨idle, none_⟩, by simp, by simp, by simp⟩
      · exact Drained.of_busy (by simp) (by simp) (by simp)
  | tally idle at_ => exact tallied at_
  | orphan => exact drained
  | halted => exact drained
  | _ => exact Drained.of_busy (by simp) (by simp) (by simp)

theorem drained_sends (drained : Drained w ctx) (sends : Sends w a ctx call) {job' : Job} :
    Drained w
      ⟨ctx.jobs.set call.index job', call.cancelRequested, some call.index, call.loop⟩ := by
  by_cases idle : ctx.sending = none
  · cases sends with
    | cancel again i sent job _ at_ requested =>
        exact ⟨by simp, fun _ _ _ => requested, by simp, by simp⟩
    | owed => simp_all
    | pollCancel => simp_all
    | pollTimeout => simp_all
    | nextStep => simp_all
    | noMoreSteps => simp_all
    | _ => exact Drained.of_busy (by simp) (by simp) (by simp)
  · have same : call.loop = ctx.loop := (sends.sending.resolve_left idle).2
    refine ⟨fun i at_ => ?_, fun again i at_ => ?_, fun at_ => ?_, fun rc at_ => ?_⟩
    · exact absurd (drained.broadcasting i (same ▸ at_)).1 idle
    · exact sends.requested (drained.telling again i (same ▸ at_))
    · exact absurd (drained.counting (same ▸ at_)).1 idle
    · exact drained.halted rc (same ▸ at_)

/-- The count goes on to wait, or finds every job final. -/
theorem drained_tally (drained : Drained w ctx) (acyclic : w.Acyclic) (admits : w.Admits)
    (reachable : (machine w).Reachable Machine.Any ctx) (at_ : ctx.loop = .tally) :
    Drained w (Kernel.tally ctx) := by
  unfold Kernel.tally
  split
  · exact ⟨by simp, by simp, by simp, fun rc returned => by simpa using returned.symm⟩
  split
  · rename_i unfinished still
    refine absurd (drained.counting at_).2 (not_exhausted acyclic admits reachable ?_ ?_)
    · simpa using unfinished
    · simpa using still
  · exact Drained.of_busy (by simp) (by simp) (by simp)

theorem drained_of_reachable (acyclic : w.Acyclic) (admits : w.Admits)
    (reachable : (machine w).Reachable Machine.Any ctx) : Drained w ctx := by
  refine reachable.along (drained_initial w) ?_
  intro s input t reachable drained ok moved
  rcases stepKernel_cases moved with quiet | ⟨call, job', sends, sent, rfl⟩
  · exact drained_quiet drained (drained_tally drained acyclic admits reachable) quiet
  · exact drained_sends drained sends

end Drained

/-- While a job is not final and none runs the pass returns an event, so `run_all`
does not give up; and a pass that returns none leaves every ready job at a full
limit and every pending one behind a need that is not final. -/
theorem run_never_stalls {w : Workflow} (acyclic : w.Acyclic) (admits : w.Admits) {ctx : RunCtx}
    (reachable : (machine w).Reachable Machine.Any ctx) :
    ((∃ job ∈ ctx.jobs, job.state.isFinal = false) →
        (∀ job ∈ ctx.jobs, job.state.isRunning = false) →
        schedPass (ctx.schedJobs w) w.parallel w.caps ≠ []) ∧
      (∀ rc, ctx.loop = .halted rc → rc = 0) ∧
      (schedPass (ctx.schedJobs w) w.parallel w.caps = [] →
        ∀ (i : Nat) (job : Job), ctx.jobs[i]? = some job →
          (job.state = .ready → Full w ctx job.spec.target) ∧
          (job.state = .pending → ∃ k need, w.Needs i k ∧ ctx.jobs[k]? = some need ∧
            need.state.isFinal = false)) := by
  refine ⟨not_exhausted acyclic admits reachable,
    (drained_of_reachable acyclic admits reachable).halted, fun exhausted i job here => ?_⟩
  refine ⟨full_of_exhausted reachable exhausted here, fun pending => ?_⟩
  obtain ⟨k, needs, open_⟩ := unfinished_of_exhausted reachable exhausted here pending
  obtain ⟨need, there⟩ := jobAt reachable (acyclic.inRange needs)
  rw [RunCtx.stateOf_of_getElem? there] at open_
  exact ⟨k, need, needs, there, open_⟩

/-- Two jobs on a target that takes one session, and one that needs the second. -/
def queued : Workflow where
  jobs := [("a", "far", []), ("b", "far", []), ("c", "local", ["b"])].map fun (id, target, needs) =>
    ⟨id, target, needs, [⟨none, none, none, false, false, 0⟩], 0⟩
  maxParallel := none
  maxSessions := fun _ => some 1
  disabled := fun _ => none
  payloadLast := true

theorem queued_acyclic : queued.Acyclic := by
  refine Workflow.acyclic_of_order fun i spec place => ?_
  match i, place with
  | 0, place => cases place; decide
  | 1, place => cases place; decide
  | 2, place => cases place; decide
  | i + 3, place => simp [queued] at place

theorem queued_runs : ∃ ctx : RunCtx, (machine queued).Reachable Machine.Any ctx ∧
    ctx.loop = .wait ∧ ctx.jobs.map (·.state) = [.stepRunning, .ready, .pending] ∧
      Exhausted queued ctx :=
  ⟨_, Machine.run_of_replay (fun _ _ => true) (fun _ _ _ => trivial) (List.replicate 19 .calm) rfl,
    rfl, rfl, show schedPass _ _ _ = [] from rfl⟩

theorem run_never_stalls_queued : ∃ ctx : RunCtx, ctx.loop = .wait ∧
    ctx.jobs.map (·.state) = [.stepRunning, .ready, .pending] ∧
      ∃ b c : Job, ctx.jobs[1]? = some b ∧ Full queued ctx b.spec.target ∧
        ctx.jobs[2]? = some c ∧ ∃ k need, queued.Needs 2 k ∧ ctx.jobs[k]? = some need ∧
          need.state.isFinal = false := by
  obtain ⟨ctx, reachable, waits, states, exhausted⟩ := queued_runs
  obtain ⟨b, b_here, ready⟩ := exists_of_states states (i := 1) rfl
  obtain ⟨c, c_here, pending⟩ := exists_of_states states (i := 2) rfl
  obtain ⟨_, _, held⟩ := run_never_stalls queued_acyclic (by unfold Workflow.Admits; decide) reachable
  exact ⟨ctx, waits, states, b, c, b_here, (held exhausted 1 b b_here).1 ready, c_here,
    (held exhausted 2 c c_here).2 pending⟩

end Qwe.Kernel
