import Qwe.Kernel.Message

/-!
# How a leader's exit is classified

`leader_exit_event` turns a wait status and whatever the child wrote on the
result pipe into an event and a reason; `reap_children` sends them on.
`Classifies` lists its outcomes with what holds at each.
-/

set_option autoImplicit false

namespace Qwe.Kernel

open Qwe.Cbor Qwe.Lifecycle Qwe.Lua
open Qwe.Redact (Bytes)
open Qwe.Template (bytes)

/-! ## The outcomes -/

/-- The leader's status alone decides. -/
def byStatus (status : WaitStatus) : Event :=
  if status = .exited 0 then .leaderExitOk else .leaderExitFail

/-- The connection was given up on before the step, or is lost now. -/
def NoConnection (job : Job) (e : Exit) : Prop :=
  e.status = .exited 255 ∧ (job.stepUnreachable = true ∨ job.stepTarget.isSome = true ∧ e.masterGone = true)

inductive Classifies (job : Job) (e : Exit) : Event × Reason × Bool → Prop where
  | refused (run : liveStepIsPlugin job = false) (why : MsgReason) (said : e.msg.status = .failed why) :
      Classifies job e (.leaderExitFail, why.text, e.msg.changed)
  | disconnected (run : liveStepIsPlugin job = false) (unsaid : ∀ why, e.msg.status ≠ .failed why)
      (lost : NoConnection job e) (why : Reason) (named : why = .unreachable ∨ why = .connectionLost) :
      Classifies job e (.leaderExitFail, why, true)
  | ran (run : liveStepIsPlugin job = false) (unsaid : ∀ why, e.msg.status ≠ .failed why)
      (connected : ¬NoConnection job e) : Classifies job e (byStatus e.status, .exitCode, true)
  | exec (plugin : liveStepIsPlugin job = true) (said : e.msg.status = .exec) :
      Classifies job e (byStatus e.status, .exitCode, true)
  | done (plugin : liveStepIsPlugin job = true) (said : e.msg.status = .ok)
      (exited : e.status = .exited 0) : Classifies job e (.leaderExitOk, .exitCode, e.msg.changed)
  | broken (plugin : liveStepIsPlugin job = true) (changed : Bool)
      (said : e.msg.status = .none ∨ e.msg.status = .ok ∧ e.status ≠ .exited 0) :
      Classifies job e (.leaderExitFail, .pluginError, changed)
  | failed (plugin : liveStepIsPlugin job = true) (why : MsgReason)
      (said : e.msg.status = .failed why) :
      Classifies job e (.leaderExitFail, why.text, e.msg.changed)

theorem classifies_run {job : Job} {e : Exit} (run : liveStepIsPlugin job = false)
    (unsaid : ∀ why, e.msg.status ≠ .failed why) : Classifies job e (leaderExitEvent job e) := by
  have lost : e.status = .exited 255 → byStatus e.status = .leaderExitFail := by
    intro code
    rw [byStatus, code]
    decide
  have result : leaderExitEvent job e =
      if job.stepUnreachable && e.status == .exited 255 then (byStatus e.status, .unreachable, true)
      else if remoteLost job e then (byStatus e.status, .connectionLost, true)
      else (byStatus e.status, .exitCode, true) := by
    simp only [leaderExitEvent, run, Bool.not_false, if_true, byStatus, beq_iff_eq]
  rw [result]
  split
  · rename_i gaveUp
    rw [Bool.and_eq_true, beq_iff_eq] at gaveUp
    rw [lost gaveUp.2]
    exact .disconnected run unsaid ⟨gaveUp.2, Or.inl gaveUp.1⟩ _ (Or.inl rfl)
  rename_i reached
  split
  · rename_i gone
    rw [remoteLost, Bool.and_eq_true, Bool.and_eq_true, beq_iff_eq] at gone
    rw [lost gone.1.2]
    exact .disconnected run unsaid ⟨gone.1.2, Or.inr ⟨gone.1.1, gone.2⟩⟩ _ (Or.inr rfl)
  · rename_i alive
    refine .ran run unsaid ?_
    rintro ⟨code, flag | ⟨remote, gone⟩⟩
    · exact reached (by simp [flag, code])
    · exact alive (by simp [remoteLost, remote, code, gone])

theorem classifies (job : Job) (e : Exit) : Classifies job e (leaderExitEvent job e) := by
  cases kind : liveStepIsPlugin job with
  | false =>
      cases said : e.msg.status with
      | failed why =>
          simp only [leaderExitEvent, kind, said, Bool.not_false, if_true]
          exact .refused kind why said
      | _ => exact classifies_run kind (by simp [said])
  | true =>
      cases said : e.msg.status with
      | exec =>
          have result := Classifies.exec kind said
          simpa only [leaderExitEvent, kind, said, Bool.not_true, Bool.false_eq_true, if_false,
            byStatus, beq_iff_eq] using result
      | ok =>
          simp only [leaderExitEvent, kind, said, Bool.not_true, Bool.false_eq_true, if_false,
            beq_iff_eq]
          split
          · rename_i exited
            exact .done kind said exited
          · rename_i other
            exact .broken kind _ (Or.inr ⟨said, other⟩)
      | failed why =>
          simp only [leaderExitEvent, kind, said, Bool.not_true, Bool.false_eq_true, if_false]
          exact .failed kind why said
      | none =>
          simp only [leaderExitEvent, kind, said, Bool.not_true, Bool.false_eq_true, if_false]
          exact .broken kind _ (Or.inl said)

/-! ## Only a remote step loses its target -/

/-- The flags of a lost target are set for a step on a remote one only. -/
def Aimed (job : Job) : Prop :=
  job.liveStep.isSome = true → job.stepUnreachable = true ∨ job.stepTarget.isSome = true →
    job.targetOfStep.isSome = true

theorem aimed_of_idle {job : Job} (idle : job.liveStep = none) : Aimed job := by
  intro live
  rw [idle] at live
  contradiction

theorem aimed_stepFinish (job : Job) : Aimed (stepFinish job) := by
  apply aimed_of_idle
  unfold stepFinish
  split
  · assumption
  · rfl

theorem aimed_stepSpawn (a : Answer) (job : Job) : Aimed (stepSpawn a job) := by
  have target : (stepSpawn a job).targetOfStep = job.targetOfStep := by
    unfold stepSpawn
    split <;> rfl
  intro _ flags
  rw [target]
  unfold stepSpawn at flags
  split at flags
  · simp only [oweStartFailed, Job.note, Bool.false_eq_true, false_or] at flags
    split at flags
    · contradiction
    · exact flags
  · simp only [Job.note, Bool.and_eq_true] at flags
    exact flags.elim And.left id

theorem aimed_applyAction (a : Answer) (res : Result) {job : Job} (aimed : Aimed job)
    (act : Action) : Aimed (applyAction a res job act) := by
  cases act with
  | startJob =>
      simp only [applyAction, jobStart]
      split
      · intro live flags
        simp only [oweStartFailed, jobRelease, Job.note, Option.isSome_none, Bool.false_eq_true,
          or_false] at flags
        exact aimed live (Or.inl flags)
      · exact aimed
  | spawnStep => exact aimed_stepSpawn a job
  | endJob =>
      have idle : (jobEnd job).liveStep = none := by
        simp only [jobEnd, Job.note, jobRelease, skipRest]
        unfold stepFinish
        split
        · assumption
        · rfl
      exact aimed_of_idle idle
  | _ => exact aimed

theorem aimed_dispatchOne {a : Answer} {job job' : Job} {ev : Event} {pl : Payload}
    {evStep : Option Nat} (aimed : Aimed job)
    (sent : dispatchOne a job ev pl evStep = some job') : Aimed job' := by
  have acts : ∀ (res : Result) (actions : List Action) (job : Job), Aimed job →
      Aimed (actions.foldl (applyAction a res) job) := by
    intro res actions
    induction actions with
    | nil => exact fun _ aimed => aimed
    | cons act actions ih =>
        intro job aimed
        exact ih _ (aimed_applyAction a res aimed act)
  unfold dispatchOne at sent
  split at sent
  · cases sent
    exact aimed
  split at sent
  · contradiction
  rename_i res _
  cases sent
  apply acts
  split
  · exact aimed_stepFinish _
  · exact aimed

theorem aimed_of_reachable {w : Workflow} {allowed : RunCtx → Answer → Prop} {ctx : RunCtx}
    {job : Job} (reachable : (machine w).Reachable allowed ctx) (member : job ∈ ctx.jobs) :
    Aimed job := by
  refine job_of_reachable (fun _ _ => aimed_of_idle rfl) ?_ reachable job member
  intro ctx a call job' _ _ sends _ sent aimed
  have read : Aimed call.read := by
    cases sends <;> exact aimed
  exact aimed_dispatchOne read sent

/-! ## The classification -/

def failureReasons : List Reason :=
  [.exitCode, .notConverged, .becomeDenied, .engineError, .pluginError, .unreachable,
    .connectionLost]

section Written
variable (heads : Bytes → List (Token Number))

/-- What was written is a table with this status. -/
def StatusIs (written : Bytes) (word : String) : Prop :=
  ∃ v, decoded heads written = some v ∧ v.field "status" = .string (bytes word)

/-- The leader's exit, with what its step wrote, read by read. -/
def exitOf (pid : Nat) (status : WaitStatus) (chunks : List Bytes) (masterGone : Bool) : Exit :=
  ⟨pid, status, readStepMsg heads (drainResult .empty chunks), masterGone⟩

/-- What `leader_exit_event` is to make of an exit and of the bytes its step wrote. -/
structure WellClassified (job : Job) (e : Exit) (written : Bytes) : Prop where
  total : (leaderExitEvent job e).1 = .leaderExitOk ∨ (leaderExitEvent job e).1 = .leaderExitFail
  run : liveStepIsPlugin job = false → ((leaderExitEvent job e).1 = .leaderExitOk ↔
    e.status = .exited 0 ∧ ¬StatusIs heads written "failed")
  uses : liveStepIsPlugin job = true → ((leaderExitEvent job e).1 = .leaderExitOk ↔
    e.status = .exited 0 ∧ (StatusIs heads written "ok" ∨ StatusIs heads written "exec"))
  reasons : (leaderExitEvent job e).1 = .leaderExitFail →
    (leaderExitEvent job e).2.1 ∈ failureReasons
  remote : (leaderExitEvent job e).2.1 = .unreachable ∨
      (leaderExitEvent job e).2.1 = .connectionLost →
    liveStepIsPlugin job = false ∧ job.targetOfStep.isSome = true ∧ e.status = .exited 255
  missing : written.length > resultMax ∨ (∃ err, cborToLua (heads written) = .error err) →
    leaderExitEvent job e = leaderExitEvent job { e with msg := .missing }

/-- After an exit with status 0, a status that decides is one of the words up to a
NUL, and more. -/
def Misread (job : Job) (status : WaitStatus) (written : Bytes) : Prop :=
  status = .exited 0 ∧ ∃ v s, decoded heads written = some v ∧ v.field "status" = .string s ∧
    0 ∈ s ∧
    if liveStepIsPlugin job then cString s = bytes "ok" ∨ cString s = bytes "exec"
    else cString s = bytes "failed"

/-- The status is this word to `strcmp`. -/
def Reports (written : Bytes) (word : String) : Prop :=
  ∃ v, decoded heads written = some v ∧ wordOf (v.field "status") = bytes word

variable {heads} {written : Bytes}

theorem reports_of_statusIs {word : String} (clean : 0 ∉ bytes word)
    (is : StatusIs heads written word) : Reports heads written word := by
  obtain ⟨v, found, named⟩ := is
  refine ⟨v, found, ?_⟩
  rw [named]
  exact cString_eq_self clean

/-- The only other way to say a word is to go on after a NUL. -/
theorem statusIs_of_reports {word : String} (some_ : bytes word ≠ [])
    (reported : Reports heads written word) :
    StatusIs heads written word ∨ ∃ v s, decoded heads written = some v ∧
      v.field "status" = .string s ∧ 0 ∈ s ∧ cString s = bytes word := by
  obtain ⟨v, found, word_⟩ := reported
  obtain ⟨s, named, cut⟩ := (wordOf_eq_iff some_).mp word_
  by_cases nul : 0 ∈ s
  · exact Or.inr ⟨v, s, found, named, nul, cut⟩
  · rw [cString_eq_self nul] at cut
    exact Or.inl ⟨v, found, cut ▸ named⟩

theorem reports_of_nul {word : String} {v : Value} {s : Bytes} (found : decoded heads written = some v)
    (named : v.field "status" = .string s) (cut : cString s = bytes word) :
    Reports heads written word := by
  refine ⟨v, found, ?_⟩
  rw [named]
  exact cut

/-- A status with a NUL in it is none of the words. -/
theorem not_statusIs_of_nul {word : String} (clean : 0 ∉ bytes word) {v : Value} {s : Bytes}
    (found : decoded heads written = some v) (named : v.field "status" = .string s)
    (nul : 0 ∈ s) : ¬StatusIs heads written word := by
  rintro ⟨v', found', named'⟩
  rw [found, Option.some.injEq] at found'
  rw [← found', named, Value.string.injEq] at named'
  exact clean (named' ▸ nul)

variable (heads)

theorem said (chunks : List Bytes) :
    let status := (readStepMsg heads (drainResult .empty chunks)).status
    (status = .exec ↔ Reports heads chunks.flatten "exec") ∧
      (status = .ok ↔ Reports heads chunks.flatten "ok") ∧
      ((∃ why, status = .failed why) ↔ Reports heads chunks.flatten "failed") := by
  have execOk : bytes "exec" ≠ bytes "ok" := by decide
  have execFailed : bytes "exec" ≠ bytes "failed" := by decide
  have okFailed : bytes "ok" ≠ bytes "failed" := by decide
  rw [readStepMsg_drained]
  simp only [Reports]
  cases decoded heads chunks.flatten with
  | none => simp [StepMsg.missing]
  | some v =>
      have reads := messageOf_reads v
      simp only [Option.elim_some, Option.some.injEq, exists_eq_left']
      generalize (messageOf v).status = status at reads
      cases reads with
      | exec is => simp [is, execOk, execFailed]
      | ok is => simp [is, execOk.symm, okFailed]
      | failed is => simp [is, execFailed.symm, okFailed.symm]
      | none exec ok failed => simp [exec, ok, failed]

end Written

section Exit
variable {job : Job} {e : Exit}

theorem byStatus_ok (status : WaitStatus) : byStatus status = .leaderExitOk ↔ status = .exited 0 := by
  unfold byStatus
  split <;> simp [*]

theorem run_exits_ok (run : liveStepIsPlugin job = false) :
    (leaderExitEvent job e).1 = .leaderExitOk ↔
      e.status = .exited 0 ∧ ¬∃ why, e.msg.status = .failed why := by
  have outcome := classifies job e
  generalize leaderExitEvent job e = result at outcome
  cases outcome with
  | refused _ why said => simp [said]
  | disconnected _ unsaid lost why named => simp [lost.1]
  | ran _ unsaid connected => simp [byStatus_ok, unsaid]
  | exec plugin => simp [run] at plugin
  | done plugin => simp [run] at plugin
  | broken plugin => simp [run] at plugin
  | failed plugin => simp [run] at plugin

theorem plugin_exits_ok (plugin : liveStepIsPlugin job = true) :
    (leaderExitEvent job e).1 = .leaderExitOk ↔
      e.status = .exited 0 ∧ (e.msg.status = .ok ∨ e.msg.status = .exec) := by
  have outcome := classifies job e
  generalize leaderExitEvent job e = result at outcome
  cases outcome with
  | refused run => simp [plugin] at run
  | disconnected run => simp [plugin] at run
  | ran run => simp [plugin] at run
  | exec _ said => simp [byStatus_ok, said]
  | done _ said exited => simp [said, exited]
  | broken _ changed said =>
      rcases said with said | ⟨said, other⟩
      · simp [said]
      · simp [other]
  | failed _ why said => simp [said]

theorem MsgReason.text_mem (why : MsgReason) : why.text ∈ failureReasons := by
  cases why <;> decide

theorem reason_mem (job : Job) (e : Exit) : (leaderExitEvent job e).2.1 ∈ failureReasons := by
  have outcome := classifies job e
  generalize leaderExitEvent job e = result at outcome
  cases outcome with
  | refused _ why said => exact why.text_mem
  | disconnected _ _ _ why named => rcases named with rfl | rfl <;> decide
  | failed _ why said => exact why.text_mem
  | _ => simp [failureReasons]

theorem disconnected_of_reason (named : (leaderExitEvent job e).2.1 = .unreachable ∨
    (leaderExitEvent job e).2.1 = .connectionLost) :
    liveStepIsPlugin job = false ∧ NoConnection job e := by
  have outcome := classifies job e
  generalize leaderExitEvent job e = result at outcome named
  cases outcome with
  | disconnected run unsaid lost => exact ⟨run, lost⟩
  | refused _ why said => cases why <;> simp [MsgReason.text] at named
  | failed _ why said => cases why <;> simp [MsgReason.text] at named
  | _ => simp at named

end Exit

/-- A word that is misread makes the classification wrong. -/
theorem not_misread {heads : Bytes → List (Token Number)} {job : Job} {pid : Nat}
    {status : WaitStatus} {chunks : List Bytes} {masterGone : Bool}
    (well : WellClassified heads job (exitOf heads pid status chunks masterGone) chunks.flatten) :
    ¬Misread heads job status chunks.flatten := by
  rintro ⟨exited, v, s, found, named, nul, cut⟩
  obtain ⟨saysExec, saysOk, saysFailed⟩ := said heads chunks
  cases kind : liveStepIsPlugin job with
  | false =>
      rw [kind] at cut
      have ok := (well.run kind).mpr ⟨exited, not_statusIs_of_nul (by decide) found named nul⟩
      exact ((run_exits_ok kind).mp ok).2 (saysFailed.mpr (reports_of_nul found named cut))
  | true =>
      rw [kind] at cut
      have told : (leaderExitEvent job (exitOf heads pid status chunks masterGone)).1 =
          .leaderExitOk := by
        refine (plugin_exits_ok kind).mpr ⟨exited, ?_⟩
        rcases cut with cut | cut
        · exact Or.inl (saysOk.mpr (reports_of_nul found named cut))
        · exact Or.inr (saysExec.mpr (reports_of_nul found named cut))
      rcases ((well.uses kind).mp told).2 with is | is
      · exact not_statusIs_of_nul (by decide) found named nul is
      · exact not_statusIs_of_nul (by decide) found named nul is

theorem missing_of_decoded_none {heads : Bytes → List (Token Number)} {written : Bytes}
    (lost : written.length > resultMax ∨ ∃ err, cborToLua (heads written) = .error err) :
    decoded heads written = none := by
  rw [decoded]
  split
  · rfl
  · rename_i fits
    rcases lost with over_ | ⟨err, failed⟩
    · exact absurd (Or.inr over_) fits
    · rw [failed]
      rfl

/-- In every reachable state the exit of a live step's leader is classified as it
should be if and only if its status is not a word cut short by a NUL. -/
theorem classification_iff (heads : Bytes → List (Token Number)) {w : Workflow}
    {allowed : RunCtx → Answer → Prop} {ctx : RunCtx}
    (reachable : (machine w).Reachable allowed ctx) {pid j : Nat} {job : Job}
    (leads : leaderOf ctx.jobs pid = some j) (here : ctx.jobs[j]? = some job)
    (status : WaitStatus) (chunks : List Bytes) (masterGone : Bool) :
    WellClassified heads job (exitOf heads pid status chunks masterGone) chunks.flatten ↔
      ¬Misread heads job status chunks.flatten := by
  refine ⟨not_misread, fun clean => ?_⟩
  obtain ⟨saysExec, saysOk, saysFailed⟩ := said heads chunks
  have live : job.liveStep.isSome = true := by
    obtain ⟨job', here', leader⟩ := leaderOf_spec leads
    rw [here, Option.some.injEq] at here'
    exact here' ▸ leader.1
  refine ⟨leaderExitEvent_exits job _, fun run => ?_, fun plugin => ?_, fun _ => reason_mem job _,
    fun named => ?_, fun lost => ?_⟩
  · rw [run_exits_ok run]
    refine and_congr_right fun exited => not_congr (saysFailed.trans ⟨fun reported => ?_, ?_⟩)
    · rcases statusIs_of_reports (by decide) reported with is | ⟨v, s, found, named, nul, cut⟩
      · exact is
      · refine absurd ⟨exited, v, s, found, named, nul, ?_⟩ clean
        rw [run]
        exact cut
    · exact reports_of_statusIs (by decide)
  · rw [plugin_exits_ok plugin]
    refine and_congr_right fun exited => ?_
    have same : ∀ word, bytes word ≠ [] → 0 ∉ bytes word → word = "ok" ∨ word = "exec" →
        (Reports heads chunks.flatten word ↔ StatusIs heads chunks.flatten word) := by
      intro word some_ noNul among
      refine ⟨fun reported => ?_, reports_of_statusIs noNul⟩
      rcases statusIs_of_reports some_ reported with is | ⟨v, s, found, named, nul, cut⟩
      · exact is
      · refine absurd ⟨exited, v, s, found, named, nul, ?_⟩ clean
        rw [plugin]
        rcases among with rfl | rfl
        · exact Or.inl cut
        · exact Or.inr cut
    exact or_congr (saysOk.trans (same "ok" (by decide) (by decide) (Or.inl rfl)))
      (saysExec.trans (same "exec" (by decide) (by decide) (Or.inr rfl)))
  · obtain ⟨run, code, flags⟩ := disconnected_of_reason named
    exact ⟨run, aimed_of_reachable reachable (List.mem_of_getElem? here) live
      (flags.imp id And.left), code⟩
  · have none_ : readStepMsg heads (drainResult .empty chunks) = .missing := by
      rw [readStepMsg_drained, missing_of_decoded_none lost]
      rfl
    rw [exitOf, none_]

/-- A job with one step, run by a plugin. -/
def onePlugin : Workflow where
  jobs := [⟨"a", "local", [], [⟨none, none, some "file.ensure", false, false, 0⟩], 0⟩]
  maxParallel := none
  maxSessions := fun _ => none
  disabled := fun _ => none
  payloadLast := false

/-- The step has been forked as process 7. -/
theorem onePlugin_runs : ∃ (ctx : RunCtx) (job : Job),
    (machine onePlugin).Reachable Machine.Any ctx ∧ leaderOf ctx.jobs 7 = some 0 ∧
      ctx.jobs[0]? = some job ∧ liveStepIsPlugin job = true := by
  have found : ∃ ctx, (machine onePlugin).Reachable Machine.Any ctx ∧
      (leaderOf ctx.jobs 7 == some 0 && (ctx.jobs[0]?).any liveStepIsPlugin) = true :=
    Machine.exists_run_of_replay (fun _ _ => true) (fun _ _ _ => trivial) (List.replicate 12 .calm)
      _ (by decide +kernel)
  obtain ⟨ctx, reachable, passed⟩ := found
  simp only [Bool.and_eq_true, beq_iff_eq] at passed
  obtain ⟨job, here, plugin⟩ := (Option.any_eq_true ..).mp passed.2
  exact ⟨ctx, job, reachable, passed.1, here, plugin⟩

/-- The message with this short status and nothing else: its bytes, and its heads. -/
def statusBytes (word : Bytes) : Bytes :=
  [0xa1, 0x66] ++ bytes "status" ++ [0x60 + UInt8.ofNat word.length] ++ word

def statusHeads (word : Bytes) : List (Token Number) :=
  [.map (some 1), .text (bytes "status"), .text word]

theorem classification_iff_ok : ∃ (ctx : RunCtx) (job : Job),
    (machine onePlugin).Reachable Machine.Any ctx ∧ leaderOf ctx.jobs 7 = some 0 ∧
      ctx.jobs[0]? = some job ∧
      (leaderExitEvent job (exitOf (fun _ => statusHeads (bytes "ok")) 7 (.exited 0)
        [statusBytes (bytes "ok")] false)).1 = .leaderExitOk := by
  obtain ⟨ctx, job, reachable, leads, here, plugin⟩ := onePlugin_runs
  refine ⟨ctx, job, reachable, leads, here, ?_⟩
  have read : decoded (fun _ => statusHeads (bytes "ok")) [statusBytes (bytes "ok")].flatten =
      some (.map [(bytes "status", .string (bytes "ok"))]) := rfl
  have clean : ¬Misread (fun _ => statusHeads (bytes "ok")) job (.exited 0)
      [statusBytes (bytes "ok")].flatten := by
    rintro ⟨_, v, s, found, named, nul, _⟩
    rw [read, Option.some.injEq] at found
    rw [← found] at named
    cases named
    exact absurd nul (by decide)
  have well := (classification_iff _ reachable leads here (.exited 0) [statusBytes (bytes "ok")]
    false).mpr clean
  exact (well.uses plugin).mpr ⟨rfl, Or.inl ⟨_, read, rfl⟩⟩

/-- `ok`, a NUL and an `x`: taken for `ok`. -/
theorem nul_status_succeeds : ¬ ∀ (heads : Bytes → List (Token Number)) (w : Workflow) (ctx : RunCtx)
    (pid j : Nat) (job : Job) (status : WaitStatus) (chunks : List Bytes) (masterGone : Bool),
    (machine w).Reachable Machine.Any ctx → leaderOf ctx.jobs pid = some j →
      ctx.jobs[j]? = some job →
      WellClassified heads job (exitOf heads pid status chunks masterGone) chunks.flatten := by
  intro claim
  obtain ⟨ctx, job, reachable, leads, here, plugin⟩ := onePlugin_runs
  have well := claim (fun _ => statusHeads [111, 107, 0, 120]) onePlugin ctx 7 0 job (.exited 0)
    [statusBytes [111, 107, 0, 120]] false reachable leads here
  refine not_misread well ⟨rfl, .map [(bytes "status", .string [111, 107, 0, 120])],
    [111, 107, 0, 120], rfl, rfl, by decide, ?_⟩
  rw [plugin]
  exact Or.inl (by decide)

end Qwe.Kernel
