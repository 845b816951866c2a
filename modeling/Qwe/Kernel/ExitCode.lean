import Qwe.Kernel.Join

/-!
# The exit code

`qwe_run_workflow` of `src/kernel/workflow.c`, from the end of `run_all` to its
result.  Its scan lets every skipped job pass, so what a 0 means rests on why jobs
are skipped.
-/

set_option autoImplicit false

namespace Qwe.Kernel

open Qwe.Lifecycle Qwe.Sched

/-! ## The codes of `qwe.h` -/

def exitOk : Nat := 0

def exitFailed : Nat := 1

def exitUsage : Nat := 2

def exitCancelled : Nat := 130

/-- What can keep `qwe_run_workflow` from calling `run_all`. -/
inductive SetupFailure where
  | loadWorkflow
  | loadJobs
  | selectJobs
  | runDirMemory
  | makeRunDir
  | tracePathMemory
  | openTrace
deriving DecidableEq, Repr

inductive RunEnd where
  | notSetUp (why : SetupFailure)
  /-- `run_all` returned `rc`; `wrote` says whether `result.json` was written -/
  | ran (rc : Int) (ctx : RunCtx) (wrote : Bool)

/-- `all_ok`: every job is success or skipped. -/
def RunCtx.allOk (ctx : RunCtx) : Bool :=
  ctx.jobs.all fun job => !(job.state != .success && job.state != .skipped)

/-- `rc` of `qwe_run_workflow`. -/
def RunEnd.exitCode : RunEnd → Nat
  | .notSetUp _ => exitUsage
  | .ran rc ctx wrote =>
      let code := if rc < 0 then exitFailed else exitOk
      let code := if !ctx.allOk then exitFailed else code
      let code := if ctx.cancelRequested then exitCancelled else code
      if !wrote then exitFailed else code

/-- How a call of `qwe_run_workflow` on the workflow can end. -/
inductive RunEnd.Of (w : Workflow) : RunEnd → Prop where
  | notSetUp (why : SetupFailure) : RunEnd.Of w (.notSetUp why)
  | ran {rc : Int} {ctx : RunCtx} (wrote : Bool) (reachable : (machine w).Reachable Machine.Any ctx)
      (halted : ctx.loop = .halted rc) : RunEnd.Of w (.ran rc ctx wrote)

/-- What has to be the case for a 0. -/
theorem exitCode_eq_ok {rc : Int} {ctx : RunCtx} {wrote : Bool}
    (ok : (RunEnd.ran rc ctx wrote).exitCode = exitOk) :
    0 ≤ rc ∧ ctx.allOk = true ∧ ctx.cancelRequested = false ∧ wrote = true := by
  simp only [RunEnd.exitCode] at ok
  split at ok
  · contradiction
  rename_i written
  split at ok
  · contradiction
  rename_i calm
  split at ok
  · contradiction
  rename_i allOk
  split at ok
  · contradiction
  rename_i returned
  exact ⟨by omega, by simpa using allOk, by simpa using calm, by simpa using written⟩

/-! ## The notes of disabled targets -/

theorem details_step {w : Workflow} {a : Answer} {ctx ctx' : RunCtx}
    (moved : stepKernel w ctx a = some ctx') :
    ctx'.jobs.map (·.detail) = ctx.jobs.map (·.detail) := by
  rcases stepKernel_cases moved with quiet | ⟨call, job', sends, sent, rfl⟩
  · rw [quiet.jobs]
  · have detail : job'.detail = call.job.detail := (dispatchOne_spec sent).2.trans sends.read_detail
    rw [List.map_set, detail]
    apply set_of_getElem?
    rw [List.getElem?_map, sends.here, Option.map_some]

theorem detailAt {w : Workflow} {ctx : RunCtx} (reachable : (machine w).Reachable Machine.Any ctx)
    {k : Nat} {job : Job} (here : ctx.jobs[k]? = some job) :
    job.detail = w.targetDisabledNote job.spec.target := by
  have details : ctx.jobs.map (·.detail) =
      w.jobs.map fun spec => w.targetDisabledNote spec.target := by
    refine reachable.invariant (P := fun ctx => ctx.jobs.map (·.detail) =
      w.jobs.map fun spec => w.targetDisabledNote spec.target) ?_
      fun _ _ _ same _ moved => (details_step moved).trans same
    simp [machine, RunCtx.initial, Job.initial, Function.comp_def]
  have same := congrArg (fun details => details[k]?) details
  simpa [here, specAt reachable here] using same

/-! ## What a 0 means -/

/-- A job skipped because its target is disabled, or behind one through skipped
jobs. -/
inductive BehindDisabled (w : Workflow) (ctx : RunCtx) : Nat → Prop where
  | disabled {i : Nat} {job : Job} (here : ctx.jobs[i]? = some job)
      (skipped : job.state = .skipped) (why : job.reason = some .targetDisabled)
      (note : (w.targetDisabledNote job.spec.target).isSome = true) : BehindDisabled w ctx i
  | behind {i k : Nat} {job : Job} (here : ctx.jobs[i]? = some job)
      (skipped : job.state = .skipped) (why : job.reason = some .dependencyFailed)
      (needs : w.Needs i k) (later : BehindDisabled w ctx k) : BehindDisabled w ctx i

theorem state_of_allOk {ctx : RunCtx} (allOk : ctx.allOk = true) {i : Nat} {job : Job}
    (here : ctx.jobs[i]? = some job) : job.state = .success ∨ job.state = .skipped := by
  have ok := List.all_eq_true.mp allOk job (List.mem_of_getElem? here)
  by_cases success : job.state = .success
  · exact Or.inl success
  · right
    simpa [success] using ok

theorem behindDisabled_of_traced {w : Workflow} {ctx : RunCtx}
    (reachable : (machine w).Reachable Machine.Any ctx) (allOk : ctx.allOk = true)
    (calm : ctx.cancelRequested = false) {i : Nat} (traced : Traced w ctx i) :
    BehindDisabled w ctx i := by
  induction traced with
  | @root i job here final failed own =>
      have skipped : job.state = .skipped := (state_of_allOk allOk here).resolve_left failed
      rcases (joined_of_reachable reachable).skipped i job here skipped with ⟨why, note⟩ |
        ⟨_, requested⟩ | ⟨why, _⟩
      · rw [detailAt reachable here] at note
        exact .disabled here skipped why note
      · rw [calm] at requested
        contradiction
      · exact absurd why (own skipped)
  | behind here skipped why needs _ ih => exact .behind here skipped why needs ih

/-- With exit code 0 no cancel was read, no job failed or was cancelled, and what
did not succeed is behind a disabled target. -/
theorem exit_ok_is_honest {w : Workflow} {result : RunEnd} (ended : RunEnd.Of w result)
    (ok : result.exitCode = exitOk) :
    ∃ rc ctx wrote, result = .ran rc ctx wrote ∧ ctx.cancelRequested = false ∧
      (∀ job ∈ ctx.jobs, job.state ≠ .failed ∧ job.state ≠ .cancelled) ∧
      ∀ (i : Nat) (job : Job), ctx.jobs[i]? = some job → job.state ≠ .success →
        job.state = .skipped ∧ BehindDisabled w ctx i := by
  cases ended with
  | notSetUp why => contradiction
  | @ran rc ctx wrote reachable halted =>
      obtain ⟨_, allOk, calm, _⟩ := exitCode_eq_ok ok
      refine ⟨rc, ctx, wrote, rfl, calm, fun job member => ?_, fun i job here failed => ?_⟩
      · obtain ⟨i, here⟩ := List.mem_iff_getElem?.mp member
        rcases state_of_allOk allOk here with is | is <;> rw [is] <;> simp
      · have skipped : job.state = .skipped := (state_of_allOk allOk here).resolve_left failed
        have traced := (joined_of_reachable reachable).traced i job here (by rw [skipped]; rfl) failed
        exact ⟨skipped, behindDisabled_of_traced reachable allOk calm traced⟩

/-- A job on a target that is out of service, and one behind it. -/
def shutDown : Workflow where
  jobs := [("a", "far", []), ("b", "local", ["a"])].map fun (id, target, needs) =>
    ⟨id, target, needs, [⟨none, none, none, false, false, 0⟩], 0⟩
  maxParallel := none
  maxSessions := fun _ => none
  disabled := fun _ => some "moving house"
  payloadLast := true

theorem shutDown_ends : ∃ ctx : RunCtx, (machine shutDown).Reachable Machine.Any ctx ∧
    ctx.loop = .halted 0 ∧ ctx.jobs.map (·.state) = [.skipped, .skipped] ∧
      (RunEnd.ran 0 ctx true).exitCode = exitOk := by
  have found : ∃ ctx, (machine shutDown).Reachable Machine.Any ctx ∧
      (ctx.loop == .halted 0 && ctx.jobs.map (·.state) == [.skipped, .skipped] &&
        (RunEnd.ran 0 ctx true).exitCode == exitOk) = true :=
    Machine.exists_run_of_replay (fun _ _ => true) (fun _ _ _ => trivial) (List.replicate 12 .calm)
      _ (by decide +kernel)
  obtain ⟨ctx, reachable, passed⟩ := found
  simp only [Bool.and_eq_true, beq_iff_eq] at passed
  exact ⟨ctx, reachable, passed.1.1, passed.1.2, passed.2⟩

theorem exit_ok_is_honest_shutDown : ∃ ctx : RunCtx, ctx.loop = .halted 0 ∧
    ctx.jobs.map (·.state) = [.skipped, .skipped] ∧ ctx.cancelRequested = false ∧
      BehindDisabled shutDown ctx 1 := by
  obtain ⟨ctx, reachable, halted, states, ok⟩ := shutDown_ends
  obtain ⟨rc, ctx', wrote, same, calm, _, behind⟩ :=
    exit_ok_is_honest (.ran true reachable halted) ok
  cases same
  obtain ⟨job, here, skipped⟩ := exists_of_states states (i := 1) rfl
  exact ⟨ctx, halted, states, calm, (behind 1 job here (by rw [skipped]; simp)).2⟩

end Qwe.Kernel
