import Qwe.Template.Secrecy

/-!
# Runs that differ only in secrets

An accepted workflow hides its secrets from every command line exactly when none
of them stands in a `run:` text before a NUL.  One direction compares two runs
piece by piece; for the other, a secret that is shown is empty in one run and
one byte long in the other, and nothing else changes.
-/

set_option autoImplicit false
set_option maxRecDepth 4000

namespace Qwe.Template

open Qwe.CutTexts (shown)
open Qwe.Lua (cString)
open Qwe.Redact (Bytes)

variable {project : Project} {session : Session} {jobId : Bytes} {job : Job}

/-! ## What is no secret is the same in both runs -/

section Same

variable (accepted : JobAccepted project.workflow project.inventory project.plugins jobId job)
  {left right : Run} {i : Nat} {outputs outputs' : Outputs}
  (reached : outputsBefore project session left jobId job i = some outputs)
  (reached' : outputsBefore project session right jobId job i = some outputs')

include accepted reached reached' in
/-- Two runs read the same output where the step that has the id reported the same. -/
theorem outputAt_congr {id key : Bytes}
    (agree : ∀ m earlier, m < i → job.steps[m]? = some earlier → earlier.id = some id →
      (received left jobId job m earlier).lookup key
        = (received right jobId job m earlier).lookup key) :
    outputAt outputs id key = outputAt outputs' id key := by
  by_cases known : ∃ m earlier, m < i ∧ job.steps[m]? = some earlier ∧ earlier.id = some id
  · obtain ⟨m, earlier, less, at_m, has⟩ := known
    rw [outputAt_reported session left accepted at_m has key reached less,
      outputAt_reported session right accepted at_m has key reached' less,
      agree m earlier less at_m has]
  · have absent : ∀ m earlier, m < i → job.steps[m]? = some earlier → earlier.id ≠ some id :=
      fun m earlier less at_m has => known ⟨m, earlier, less, at_m, has⟩
    rw [outputAt_absent session left accepted id key reached absent,
      outputAt_absent session right accepted id key reached' absent]

variable (found : project.workflow.jobs.lookup jobId = some job)
  (same : SameButSecrets project session left right)

include found same in
theorem received_same {m : Nat} {earlier : Step} (at_m : job.steps[m]? = some earlier) {key : Bytes}
    (plain : ¬ ((earlier.run.isSome && isRemote job earlier) = false ∧
      declaresSecret project session left jobId job m earlier key = true)) :
    (received left jobId job m earlier).lookup key
      = (received right jobId job m earlier).lookup key := by
  unfold received
  split_ifs with silent
  · rfl
  · apply same jobId job found m earlier at_m key
    rintro ⟨secret, -⟩
    exact plain ⟨by simpa using silent, secret⟩

include accepted reached reached' found same in
theorem pieceText_same {parsed : Expr}
    (plain : ¬ ReadsSecret project session left jobId job i parsed) :
    pieceText project.workflow project.inventory left.reveal job outputs (.expr parsed)
      = pieceText project.workflow project.inventory right.reveal job outputs' (.expr parsed) := by
  cases parsed with
  | env name => rfl
  | vars name => rfl
  | secrets name => exact absurd trivial plain
  | steps id key =>
      have read : outputAt outputs id key = outputAt outputs' id key :=
        outputAt_congr accepted reached reached' fun m earlier less at_m has =>
          received_same found same at_m fun secret => plain ⟨m, earlier, less, at_m, has, secret⟩
      simp only [pieceText, resolveExpr, read]

end Same

theorem hides_of_stayOut
    (accepted : structureProblems project.workflow project.inventory project.plugins = [])
    (stayOut : SecretsStayOut project session) : HidesSecrets project session := by
  intro left right same jobId job found i
  have job_accepted := jobAccepted accepted found
  cases at_i : job.steps[i]? with
  | none => rw [runArgv, runArgv, at_i, Option.bind_none, Option.bind_none]
  | some step =>
      cases has : step.run with
      | none => rw [runArgv_uses at_i left has, runArgv_uses at_i right has]
      | some text =>
          cases reached : outputsBefore project session left jobId job i with
          | none =>
              have unreached : outputsBefore project session right jobId job i = none := by
                rw [← Option.not_isSome_iff_eq_none, isSome_outputsBefore right left, reached]
                exact Bool.false_ne_true
              rw [runArgv_unprepared at_i left (.inl reached),
                runArgv_unprepared at_i right (.inl unreached)]
          | some outputs =>
              obtain ⟨outputs', reached'⟩ := reached_in right reached
              cases starts : step.holdsEnvelope with
              | true =>
                  rw [runArgv_unprepared at_i left (.inr starts),
                    runArgv_unprepared at_i right (.inr starts)]
              | false =>
                  have agree : ∀ piece ∈ shown 0
                      (pieceText project.workflow project.inventory left.reveal job outputs)
                      (pieces project.workflow job step text),
                      pieceText project.workflow project.inventory left.reveal job outputs piece
                        = pieceText project.workflow project.inventory right.reveal job outputs'
                          piece := by
                    intro piece present
                    cases piece with
                    | byte b => rfl
                    | expr parsed =>
                        exact pieceText_same job_accepted reached reached' found same
                          (stayOut left jobId job found i step text outputs at_i has reached starts
                            parsed present)
                  obtain ⟨read, ends⟩ := CutTexts.cut_congr agree
                  rw [runArgv_run job_accepted at_i left has reached starts,
                    runArgv_run job_accepted at_i right has reached' starts]
                  exact scriptArgv_congr read ends

/-! ## A run with other plaintexts -/

/-- The run in which every envelope holds `plain`, and all else is as it was. -/
def Run.withPlain (run : Run) (plain : Bytes) : Run where
  reveal := fun _ => plain
  reported := run.reported

theorem sameButSecrets_withPlain (run : Run) (left right : Bytes) :
    SameButSecrets project session (run.withPlain left) (run.withPlain right) :=
  fun _ _ _ _ _ _ _ _ => rfl

/-- A secret that the job sees. -/
def IsSecret (workflow : Workflow) (inventory : Inventory) (job : Job) (piece : Piece) : Prop :=
  ∃ name, piece = .expr (.secrets name) ∧
    ((secretScope workflow inventory (some job.target)).lookup name).isSome

section Plain

variable (accepted : JobAccepted project.workflow project.inventory project.plugins jobId job)
  {run : Run} {i : Nat} {outputs outputs' : Outputs} {plain : Bytes}
  (reached : outputsBefore project session run jobId job i = some outputs)
  (reached' : outputsBefore project session (run.withPlain plain) jobId job i = some outputs')

theorem pieceText_withPlain {workflow : Workflow} {inventory : Inventory} {piece : Piece}
    (secret : IsSecret workflow inventory job piece) :
    pieceText workflow inventory (run.withPlain plain).reveal job outputs piece = plain := by
  obtain ⟨name, rfl, visible⟩ := secret
  obtain ⟨envelope, found⟩ := Option.isSome_iff_exists.mp visible
  simp only [pieceText, resolveExpr, found, Run.withPlain, Option.map_some, Option.getD_some]

include accepted reached reached' in
theorem pieceText_withPlain_other {piece : Piece}
    (other : ¬ IsSecret project.workflow project.inventory job piece) :
    pieceText project.workflow project.inventory (run.withPlain plain).reveal job outputs' piece
      = pieceText project.workflow project.inventory run.reveal job outputs piece := by
  cases piece with
  | byte b => rfl
  | expr parsed =>
      cases parsed with
      | env name => rfl
      | vars name => rfl
      | secrets name =>
          have hidden : (secretScope project.workflow project.inventory (some job.target)).lookup
              name = none := by
            rw [← Option.not_isSome_iff_eq_none]
            exact fun visible => other ⟨name, rfl, visible⟩
          simp only [pieceText, resolveExpr, hidden, Option.map_none]
      | steps id key =>
          have read : outputAt outputs' id key = outputAt outputs id key :=
            outputAt_congr accepted reached' reached fun m earlier _ _ _ => rfl
          simp only [pieceText, resolveExpr, read]

end Plain

/-- A secret that is shown in a text shows in the argv. -/
theorem shows_secret (hides : HidesSecrets project session)
    (found : project.workflow.jobs.lookup jobId = some job)
    (accepted : JobAccepted project.workflow project.inventory project.plugins jobId job)
    {run : Run} {i : Nat} {step : Step} {text name : Bytes} {outputs : Outputs}
    (at_i : job.steps[i]? = some step) (has : step.run = some text)
    (reached : outputsBefore project session run jobId job i = some outputs)
    (starts : step.holdsEnvelope = false) :
    .expr (.secrets name) ∉ shown 0
      (pieceText project.workflow project.inventory run.reveal job outputs)
      (pieces project.workflow job step text) := by
  intro present
  have secret : IsSecret project.workflow project.inventory job (.expr (.secrets name)) := by
    refine ⟨name, rfl, ?_⟩
    rcases mem_pieces (CutTexts.mem_of_mem_shown present) with read | ⟨_, value, declared, read⟩
    · exact absurd read (accepted.run_reads_no_secret at_i has name)
    · exact accepted.declared_secret_visible at_i declared read
  obtain ⟨empty, reachedEmpty⟩ := reached_in (run.withPlain []) reached
  obtain ⟨long, reachedLong⟩ := reached_in (run.withPlain [120]) reached
  have scripts := scriptIn_of_runArgv accepted at_i has reachedEmpty reachedLong starts
    (hides _ _ (sameButSecrets_withPlain run [] [120]) jobId job found i)
  have grows := CutTexts.cut_length_lt (IsSecret project.workflow project.inventory job)
    (fun piece _ other => ⟨pieceText_withPlain_other accepted reached reachedEmpty other,
      pieceText_withPlain_other accepted reached reachedLong other⟩)
    (fun piece _ changed => by
      rw [pieceText_withPlain changed, pieceText_withPlain changed]
      decide)
    present secret
  exact absurd (congrArg List.length scripts) (Nat.ne_of_lt grows)

/-! ## A run with one output changed -/

/-- The run in which step `m` reports `value` under `key`, and all else is as it was. -/
def Run.withOutput (run : Run) (jobId : Bytes) (m : Nat) (key value : Bytes) : Run where
  reveal := run.reveal
  reported := fun id k =>
    if id = jobId ∧ k = m then (run.reported id k).insert key (.scalar (.string value))
    else run.reported id k

/-- What happened before step `i` is decided by the steps before it. -/
theorem outputsBefore_congr {left right : Run} (reveal : left.reveal = right.reveal) :
    ∀ {i : Nat}, (∀ m, m < i → left.reported jobId m = right.reported jobId m) →
      outputsBefore project session left jobId job i
        = outputsBefore project session right jobId job i
  | 0, _ => rfl
  | i + 1, agree => by
      have before := outputsBefore_congr (i := i) reveal fun m less =>
        agree m (Nat.lt_succ_of_lt less)
      have now := agree i (Nat.lt_succ_self i)
      rw [outputsBefore, outputsBefore]
      cases job.steps[i]? with
      | none => exact before
      | some step => simp only [resolvedWith, received, before, now, reveal]

theorem declaresSecret_withOutput {run : Run} {m : Nat} {key value other : Bytes} {step : Step} :
    declaresSecret project session (run.withOutput jobId m key value) jobId job m step other
      = declaresSecret project session run jobId job m step other := by
  have before : outputsBefore project session (run.withOutput jobId m key value) jobId job m
      = outputsBefore project session run jobId job m := by
    apply outputsBefore_congr
    · rfl
    · intro k less
      exact if_neg fun here => Nat.ne_of_lt less here.2
  simp only [declaresSecret, resolvedStep, resolvedWith, before]
  rfl

section Changed

variable (found : project.workflow.jobs.lookup jobId = some job)
  (accepted : JobAccepted project.workflow project.inventory project.plugins jobId job)
  {run : Run} {m : Nat} {earlier : Step} {id key value : Bytes}
  (at_m : job.steps[m]? = some earlier) (has : earlier.id = some id)
  (reports : (earlier.run.isSome && isRemote job earlier) = false)
  (secret : declaresSecret project session run jobId job m earlier key = true)
  {i : Nat} {outputs outputs' : Outputs}
  (reached : outputsBefore project session run jobId job i = some outputs)
  (reached' : outputsBefore project session (run.withOutput jobId m key value) jobId job i
    = some outputs')

include found at_m secret in
theorem sameButSecrets_withOutput (left right : Bytes) :
    SameButSecrets project session (run.withOutput jobId m key left)
      (run.withOutput jobId m key right) := by
  intro otherId otherJob otherFound k step at_k other notBoth
  by_cases here : otherId = jobId ∧ k = m
  · obtain ⟨rfl, rfl⟩ := here
    rw [found] at otherFound
    cases otherFound
    rw [at_m] at at_k
    cases at_k
    rw [declaresSecret_withOutput, declaresSecret_withOutput] at notBoth
    have apart : other ≠ key := by
      rintro rfl
      exact notBoth ⟨secret, secret⟩
    simp only [Run.withOutput, and_self, if_true, AList.lookup_insert_ne apart]
  · simp only [Run.withOutput, if_neg here]

include accepted at_m has reports reached' in
theorem pieceText_withOutput (less : m < i) :
    pieceText project.workflow project.inventory (run.withOutput jobId m key value).reveal job
      outputs' (.expr (.steps id key)) = value := by
  have read : outputAt outputs' id key = some (.string value) := by
    rw [outputAt_reported session _ accepted at_m has key reached' less, received, reports]
    simp [Run.withOutput, Data.scalar?]
  simp only [pieceText, resolveExpr, read, Option.map_some, Option.getD_some, envString]

include accepted at_m has reached reached' in
theorem pieceText_withOutput_other {piece : Piece} (other : piece ≠ .expr (.steps id key)) :
    pieceText project.workflow project.inventory (run.withOutput jobId m key value).reveal job
        outputs' piece
      = pieceText project.workflow project.inventory run.reveal job outputs piece := by
  cases piece with
  | byte b => rfl
  | expr parsed =>
      cases parsed with
      | env name => rfl
      | vars name => rfl
      | secrets name => rfl
      | steps otherId otherKey =>
          have read : outputAt outputs' otherId otherKey = outputAt outputs otherId otherKey := by
            refine outputAt_congr accepted reached' reached fun k step less at_k named => ?_
            have unchanged : ((run.withOutput jobId m key value).reported jobId k).lookup otherKey
                = (run.reported jobId k).lookup otherKey := by
              by_cases here : k = m
              · subst here
                rw [at_m] at at_k
                cases at_k
                rw [has] at named
                cases named
                have differ : otherKey ≠ key := fun eq => other (by rw [eq])
                simp only [Run.withOutput, and_self, if_true, AList.lookup_insert_ne differ]
              · simp only [Run.withOutput, here, and_false, if_false]
            unfold received
            split_ifs
            · rfl
            · rw [unchanged]
          simp only [pieceText, resolveExpr, read]

include found accepted at_m has reports secret reached in
/-- A secret output that is shown in a text shows in the argv. -/
theorem shows_output (hides : HidesSecrets project session) {step : Step} {text : Bytes}
    (less : m < i) (at_i : job.steps[i]? = some step) (runs : step.run = some text)
    (starts : step.holdsEnvelope = false) :
    .expr (.steps id key) ∉ shown 0
      (pieceText project.workflow project.inventory run.reveal job outputs)
      (pieces project.workflow job step text) := by
  intro present
  obtain ⟨empty, reachedEmpty⟩ := reached_in (run.withOutput jobId m key []) reached
  obtain ⟨long, reachedLong⟩ := reached_in (run.withOutput jobId m key [120]) reached
  have scripts := scriptIn_of_runArgv accepted at_i runs reachedEmpty reachedLong starts
    (hides _ _ (sameButSecrets_withOutput found at_m secret [] [120]) jobId job found i)
  have grows := CutTexts.cut_length_lt (fun piece => piece = .expr (.steps id key))
    (fun piece _ other => ⟨pieceText_withOutput_other accepted at_m has reached reachedEmpty other,
      pieceText_withOutput_other accepted at_m has reached reachedLong other⟩)
    (fun piece _ changed => by
      rw [changed, pieceText_withOutput accepted at_m has reports reachedEmpty less,
        pieceText_withOutput accepted at_m has reports reachedLong less]
      decide)
    present rfl
  exact absurd (congrArg List.length scripts) (Nat.ne_of_lt grows)

end Changed

theorem stayOut_of_hides
    (accepted : structureProblems project.workflow project.inventory project.plugins = [])
    (hides : HidesSecrets project session) : SecretsStayOut project session := by
  intro run jobId job found i step text outputs at_i has reached starts parsed present reads
  have job_accepted := jobAccepted accepted found
  cases parsed with
  | env name => exact reads
  | vars name => exact reads
  | secrets name => exact shows_secret hides found job_accepted at_i has reached starts present
  | steps id key =>
      obtain ⟨m, earlier, less, at_m, named, reports, secret⟩ := reads
      exact shows_output found job_accepted at_m named reports secret reached hides less at_i has
        starts present

/-- Secrets stay off the command lines of an accepted workflow exactly when no
`run:` text shows one, directly or through the env value it names. -/
theorem argv_hides_secrets_iff (accepted : project.Accepted) :
    HidesSecrets project session ↔ SecretsStayOut project session :=
  ⟨stayOut_of_hides accepted.2, hides_of_stayOut accepted.2⟩

/-! ## A workflow that keeps to its env, and one that does not -/

def soloSession : Session where
  outputPath := fun _ _ => none
  token := fun _ _ => []
  sock := fun _ => []

/-- One job `j` on the operator host, and one secret `S`. -/
def soloProject (job : Job) : Project where
  workflow :=
    { secrets := Table.ofPairs [(bytes "S", bytes "sealed")]
      jobs := Table.ofPairs [(bytes "j", job)] }
  inventory := {}
  plugins := ∅

theorem soloProject_job {job other : Job} {jobId : Bytes}
    (found : (soloProject job).workflow.jobs.lookup jobId = some other) : other = job := by
  have only : (jobId, other) ∈ [(bytes "j", job)] := Table.lookup_eq_some_iff.mp found
  rw [List.mem_singleton, Prod.mk.injEq] at only
  exact only.2

/-- A secret and a secret output go through the env, an open output into the text. -/
def mappedJob : Job where
  target := localTarget
  steps :=
    [{ id := some (bytes "mint"), kind := .run (bytes "mint"), secretOutputs := [bytes "token"] },
     { kind := .run (bytes "use $\x7b\x7b steps.mint.outputs.user \x7d\x7d")
       env := Table.ofPairs
        [(bytes "TOKEN", .string (bytes "$\x7b\x7b steps.mint.outputs.token \x7d\x7d")),
         (bytes "PASSWORD", .string (bytes "$\x7b\x7b secrets.S \x7d\x7d"))] }]

theorem mappedJob_pieces {i : Nat} {step : Step} {text : Bytes}
    (at_i : mappedJob.steps[i]? = some step) (has : step.run = some text) :
    ∀ parsed, .expr parsed ∈ pieces (soloProject mappedJob).workflow mappedJob step text →
      i = 1 ∧ parsed = .steps (bytes "mint") (bytes "user") := by
  have each : ∀ entry ∈ mappedJob.steps.zipIdx, ∀ text ∈ entry.1.run.toList,
      ∀ piece ∈ pieces (soloProject mappedJob).workflow mappedJob entry.1 text,
        piece ∈ text.map .byte ∨
          entry.2 = 1 ∧ piece = .expr (.steps (bytes "mint") (bytes "user")) := by decide
  intro parsed present
  have listed : (step, i) ∈ mappedJob.steps.zipIdx := List.mk_mem_zipIdx_iff_getElem?.mpr at_i
  rcases each _ listed text (Option.mem_toList.mpr has) _ present with other | ⟨second, same⟩
  · simp at other
  · exact ⟨second, Piece.expr.inj same⟩

theorem argv_hides_secrets_mappedJob :
    (soloProject mappedJob).Accepted ∧ HidesSecrets (soloProject mappedJob) soloSession := by
  have accepted : (soloProject mappedJob).Accepted := by decide
  refine ⟨accepted, (argv_hides_secrets_iff accepted).mpr ?_⟩
  intro run jobId job found i step text outputs at_i has reached starts parsed present reads
  cases soloProject_job found
  obtain ⟨rfl, rfl⟩ := mappedJob_pieces at_i has parsed (CutTexts.mem_of_mem_shown present)
  obtain ⟨m, earlier, less, at_m, -, -, secret⟩ := reads
  obtain rfl : m = 0 := by omega
  cases at_m
  have first : outputsBefore (soloProject mappedJob) soloSession run jobId mappedJob 0 = some ∅ := rfl
  have listed := (declaresSecret_iff_of_plain first rfl (by decide)
    fun _ uses => by cases uses).mp secret
  rcases listed with named | ⟨declared, lookup, -⟩
  · exact absurd named (by decide)
  · cases lookup

/-- Every envelope holds `plain` and no step reports anything. -/
def silentRun (plain : Bytes) : Run where
  reveal := fun _ => plain
  reported := fun _ _ => ∅

/-- The env value of `X` is a secret, and the text reads `X`. -/
def readingJob : Job where
  target := localTarget
  env := Table.ofPairs [(bytes "X", .string (bytes "$\x7b\x7b secrets.S \x7d\x7d"))]
  steps := [{ kind := .run (bytes "echo $\x7b\x7b env.X \x7d\x7d") }]

theorem env_secret_in_argv :
    ¬ ∀ (project : Project) (session : Session), project.Accepted →
      HidesSecrets project session := by
  intro claim
  have hides := claim (soloProject readingJob) soloSession (by decide)
  have same := hides (silentRun [97]) (silentRun [98]) (fun _ _ _ _ _ _ _ _ => rfl)
    (bytes "j") readingJob rfl 0
  exact absurd same (by decide)

end Qwe.Template
