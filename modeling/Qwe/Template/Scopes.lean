import Qwe.Template.Strings

/-!
# What a secret's name means

A job reads secrets from three maps: the workflow's, the inventory's and its
target's.  `structure` refuses a name that two of them define, pair by pair, so
in an accepted project the scope that `resolve` builds does not depend on the
order of the merge.

`check` looks names up in the same scope wherever it scans for a job.  The
workflow's own `env:` belongs to no job: it is scanned without a target, in the
part of the scope that every job shares.
-/

set_option autoImplicit false

namespace Qwe.Template

open Qwe.Redact (Bytes)

/-- The maps that can define a secret for a job. -/
inductive Holder where
  | workflow
  | inventory
  | target
deriving DecidableEq, Repr

/-- The `secrets:` of a target; `local` and a target that does not exist have none. -/
def targetSecrets (inventory : Inventory) (target : Bytes) : Table Bytes Bytes :=
  ((inventory.targets.lookup target).map Target.secrets).getD ∅

section Scopes

variable (workflow : Workflow) (inventory : Inventory) (job : Job)

def Holder.secrets : Holder → Table Bytes Bytes
  | .workflow => workflow.secrets
  | .inventory => inventory.secrets
  | .target => targetSecrets inventory job.target

/-- The three maps in the order `resolve` merges them. -/
def secretMaps : List (Table Bytes Bytes) :=
  [inventory.secrets, targetSecrets inventory job.target, workflow.secrets]

/-- The scopes `check` scans in for a job: the workflow's env, the job's, and the
env, the `run:` text and the `with:` values of its steps. -/
inductive ScannedFor : Scope → Prop where
  | workflowEnv :
      ScannedFor { earlier := ∅, inEnv := true, target := none, isRun := false }
  | jobEnv :
      ScannedFor { earlier := ∅, inEnv := true, target := some job.target, isRun := false }
  | stepEnv (earlier : Earlier) :
      ScannedFor { earlier := earlier, inEnv := true, target := some job.target, isRun := false }
  | run (earlier : Earlier) :
      ScannedFor { earlier := earlier, inEnv := false, target := some job.target, isRun := true }
  | withValues (earlier : Earlier) :
      ScannedFor { earlier := earlier, inEnv := false, target := some job.target, isRun := false }

end Scopes

/-- The names of env values that are scanned. -/
def EnvName (name : Bytes) : Prop :=
  isEnvName name = true ∧ name ≠ bytes "QWE_OUTPUT" ∧ name ≠ bytes "QWE_STEP"

/-- The `earlier` of step `i`. -/
def notedBefore (plugins : Plugins) (job : Job) (i : Nat) : Earlier :=
  (job.steps.take i).foldl (noteStep plugins) ∅

/-- The texts that `check` scans for a job, each with the scope it is scanned in. -/
inductive Scanned (workflow : Workflow) (plugins : Plugins) (job : Job) : Scope → Bytes → Prop where
  | workflowEnv {name text : Bytes} (declared : workflow.env.lookup name = some (.string text))
      (named : EnvName name) :
      Scanned workflow plugins job { earlier := ∅, inEnv := true, target := none, isRun := false }
        text
  | jobEnv {name text : Bytes} (declared : job.env.lookup name = some (.string text))
      (named : EnvName name) :
      Scanned workflow plugins job
        { earlier := ∅, inEnv := true, target := some job.target, isRun := false } text
  | stepEnv {i : Nat} {step : Step} {name text : Bytes} (at_i : job.steps[i]? = some step)
      (declared : step.env.lookup name = some (.string text))
      (named : EnvName name) :
      Scanned workflow plugins job
        { earlier := notedBefore plugins job i, inEnv := true, target := some job.target,
          isRun := false } text
  | run {i : Nat} {step : Step} {text : Bytes} (at_i : job.steps[i]? = some step)
      (runs : step.run = some text) :
      Scanned workflow plugins job
        { earlier := notedBefore plugins job i, inEnv := false, target := some job.target,
          isRun := true } text
  | withValues {i : Nat} {step : Step} {entries : List (Bytes × Data)} {text : Bytes}
      (at_i : job.steps[i]? = some step) (given : step.with_ = some entries)
      (present : text ∈ Data.entryStrings entries) :
      Scanned workflow plugins job
        { earlier := notedBefore plugins job i, inEnv := false, target := some job.target,
          isRun := false } text

variable {workflow : Workflow} {inventory : Inventory} {plugins : Plugins} {job : Job}

/-! ## What `check` scans -/

theorem Scanned.scannedFor {scope : Scope} {text : Bytes}
    (scanned : Scanned workflow plugins job scope text) : ScannedFor job scope := by
  cases scanned with
  | workflowEnv declared named => exact .workflowEnv
  | jobEnv declared named => exact .jobEnv
  | stepEnv at_i declared named => exact .stepEnv _
  | run at_i runs => exact .run _
  | withValues at_i given present => exact .withValues _

section Env

variable {scope : Scope} {pointer name text : Bytes} {env : Table Bytes Scalar}

theorem scanText_subset_checkEnv (declared : env.lookup name = some (.string text))
    (named : EnvName name) :
    ∃ here, scanText workflow inventory scope here text
      ⊆ checkEnv workflow inventory scope pointer env := by
  refine ⟨pointer ++ bytes "/" ++ esc name, fun p reported =>
    List.mem_flatMap.mpr ⟨_, Table.lookup_eq_some_iff.mp declared, ?_⟩⟩
  simp only [envProblems, named.1, named.2.1, named.2.2, Bool.not_true, Bool.false_eq_true,
    if_false]
  exact reported

theorem mem_checkEnv {p : Problem} (reported : p ∈ checkEnv workflow inventory scope pointer env)
    (ofValue : p.kind = .value) :
    ∃ name text, env.lookup name = some (.string text) ∧ EnvName name ∧
      p ∈ scanText workflow inventory scope p.pointer text := by
  have ofKey {q : Problem} (key : q.kind = .key) (only : p ∈ [q]) : False := by
    rw [List.mem_singleton.mp only, key] at ofValue
    cases ofValue
  obtain ⟨⟨name, value⟩, listed, found⟩ := List.mem_flatMap.mp reported
  simp only [envProblems] at found
  split_ifs at found with bad output token
  · exact (ofKey rfl found).elim
  · exact (ofKey rfl found).elim
  · exact (ofKey rfl found).elim
  · cases value with
    | string text =>
        exact ⟨name, text, Table.lookup_eq_some_iff.mpr listed, ⟨by simpa using bad, output, token⟩,
          (mem_scanText found).1⟩
    | number n => cases found
    | boolean b => cases found

end Env

theorem mem_checkSteps {target base : Bytes} {p : Problem} :
    ∀ {steps : List Step} {i : Nat} {earlier : Earlier},
      p ∈ checkSteps workflow inventory plugins target base i earlier steps ↔
        ∃ k step, steps[k]? = some step ∧ p ∈ checkStep workflow inventory target base
          ((steps.take k).foldl (noteStep plugins) earlier) (i + k) step
  | [], i, earlier => by simp [checkSteps]
  | first :: rest, i, earlier => by
      rw [checkSteps, List.mem_append, mem_checkSteps]
      constructor
      · rintro (own | ⟨k, step, at_k, later⟩)
        · exact ⟨0, first, rfl, own⟩
        · refine ⟨k + 1, step, at_k, ?_⟩
          rw [← Nat.add_assoc, Nat.add_right_comm]
          exact later
      · rintro ⟨k, step, at_k, found⟩
        cases k with
        | zero =>
            cases at_k
            exact .inl found
        | succ k =>
            refine .inr ⟨k, step, at_k, ?_⟩
            rw [← Nat.add_assoc, Nat.add_right_comm] at found
            exact found

theorem lookup_of_mem_jobsInOrder {jobId : Bytes} (listed : (jobId, job) ∈ jobsInOrder workflow) :
    workflow.jobs.lookup jobId = some job := by
  obtain ⟨id, -, found⟩ := List.mem_filterMap.mp listed
  obtain ⟨other, found, same⟩ := Option.map_eq_some_iff.mp found
  cases same
  exact found

/-- What a text is scanned for, `check` reports. -/
theorem Scanned.reported {jobId : Bytes} (found : workflow.jobs.lookup jobId = some job)
    {scope : Scope} {text : Bytes} (scanned : Scanned workflow plugins job scope text) :
    ∃ here, scanText workflow inventory scope here text ⊆ check workflow inventory plugins := by
  have ofJob {problems : List Problem}
      (inside : problems ⊆ checkEnv workflow inventory
          { earlier := ∅, inEnv := true, target := some job.target, isRun := false }
          (jobPointer jobId ++ bytes "/env") job.env ++
        checkSteps workflow inventory plugins job.target (jobPointer jobId) 0 ∅ job.steps) :
      problems ⊆ check workflow inventory plugins := fun p reported =>
    List.mem_append_right _ (List.mem_flatMap.mpr ⟨_, mem_jobsInOrder found, inside reported⟩)
  have ofStep {i : Nat} {step : Step} (at_i : job.steps[i]? = some step) {problems : List Problem}
      (inside : problems ⊆ checkStep workflow inventory job.target (jobPointer jobId)
        (notedBefore plugins job i) (0 + i) step) : problems ⊆ check workflow inventory plugins :=
    ofJob fun p reported =>
      List.mem_append_right _ (mem_checkSteps.mpr ⟨i, step, at_i, inside reported⟩)
  cases scanned with
  | workflowEnv declared named =>
      obtain ⟨here, inside⟩ := scanText_subset_checkEnv declared named
      exact ⟨here, fun p reported => List.mem_append_left _ (inside reported)⟩
  | jobEnv declared named =>
      obtain ⟨here, inside⟩ := scanText_subset_checkEnv declared named
      exact ⟨here, ofJob fun p reported => List.mem_append_left _ (inside reported)⟩
  | stepEnv at_i declared named =>
      obtain ⟨here, inside⟩ := scanText_subset_checkEnv declared named
      exact ⟨here, ofStep at_i fun p reported =>
        List.mem_append_left _ (List.mem_append_left _ (inside reported))⟩
  | run at_i runs =>
      rename_i i step
      refine ⟨jobPointer jobId ++ bytes "/steps/" ++ decimalNat (0 + i) ++ bytes "/run",
        ofStep at_i fun p reported => List.mem_append_left _ (List.mem_append_right _ ?_)⟩
      rw [runs]
      exact reported
  | withValues at_i given present =>
      rename_i i step entries
      obtain ⟨here, inside⟩ := scanText_subset_scan workflow inventory
        { earlier := notedBefore plugins job i, inEnv := false, target := some job.target,
          isRun := false }
        (jobPointer jobId ++ bytes "/steps/" ++ decimalNat (0 + i) ++ bytes "/with")
        (.map entries) rfl text present
      refine ⟨here, ofStep at_i fun p reported => List.mem_append_right _ ?_⟩
      rw [given]
      exact inside reported

/-- `check` reports names, and what a text is scanned for. -/
theorem scanned_of_reported {jobId : Bytes} (found : workflow.jobs.lookup jobId = some job)
    {p : Problem} (reported : p ∈ check workflow inventory plugins) (ofValue : p.kind = .value) :
    ∃ otherId other scope text, workflow.jobs.lookup otherId = some other ∧
      Scanned workflow plugins other scope text ∧
      p ∈ scanText workflow inventory scope p.pointer text := by
  rw [check, List.mem_append] at reported
  rcases reported with inWorkflow | inJobs
  · obtain ⟨name, text, declared, named, here⟩ := mem_checkEnv inWorkflow ofValue
    exact ⟨jobId, job, _, text, found, .workflowEnv declared named, here⟩
  · obtain ⟨⟨otherId, other⟩, listed, inJob⟩ := List.mem_flatMap.mp inJobs
    have known := lookup_of_mem_jobsInOrder listed
    rcases List.mem_append.mp inJob with inEnv | inSteps
    · obtain ⟨name, text, declared, named, here⟩ := mem_checkEnv inEnv ofValue
      exact ⟨otherId, other, _, text, known, .jobEnv declared named, here⟩
    · obtain ⟨k, step, at_k, inStep⟩ := mem_checkSteps.mp inSteps
      rw [checkStep, List.mem_append, List.mem_append] at inStep
      rcases inStep with (inEnv | inRun) | inWith
      · obtain ⟨name, text, declared, named, here⟩ := mem_checkEnv inEnv ofValue
        exact ⟨otherId, other, _, text, known, .stepEnv at_k declared named, here⟩
      · cases runs : step.run with
        | none =>
            rw [runs] at inRun
            cases inRun
        | some text =>
            rw [runs] at inRun
            exact ⟨otherId, other, _, text, known, .run at_k runs, (mem_scanText inRun).1⟩
      · cases given : step.with_ with
        | none =>
            rw [given] at inWith
            cases inWith
        | some entries =>
            rw [given] at inWith
            obtain ⟨text, present, here⟩ := mem_scan (.map entries) rfl inWith
            exact ⟨otherId, other, _, text, known, .withValues at_k given present, here⟩

theorem lookup_secretScope (name : Bytes) :
    (secretScope workflow inventory (some job.target)).lookup name
      = (Table.mergeAll (secretMaps workflow inventory job)).lookup name := by
  simp only [secretScope, Inventory.secretsFor, secretMaps, targetSecrets, Table.mergeAll,
    List.foldl_cons, List.foldl_nil, Option.bind_some]
  cases inventory.targets.lookup job.target with
  | some t => rfl
  | none => simp [Table.lookup_putAll]

theorem lookup_secretScope_none (name : Bytes) :
    (secretScope workflow inventory none).lookup name
      = (workflow.secrets.lookup name).or (inventory.secrets.lookup name) := by
  simp [secretScope, Inventory.secretsFor, Table.lookup_putAll]

/-! ## The maps of an accepted project -/

theorem isSome_lookup_iff {map : Table Bytes Bytes} {name : Bytes} :
    (map.lookup name).isSome ↔ name ∈ map.keys := by
  rw [AList.lookup_isSome, AList.mem_keys]

theorem apart_of_sharedSecretProblems (accepted : sharedSecretProblems workflow inventory = []) :
    inventory.secrets.Apart workflow.secrets := by
  rw [sharedSecretProblems, List.map_eq_nil_iff, List.filter_eq_nil_iff] at accepted
  intro name
  cases own : workflow.secrets.lookup name with
  | none => exact .inr rfl
  | some envelope =>
      have key : name ∈ workflow.secrets.keys := isSome_lookup_iff.mp (by rw [own]; rfl)
      exact .inl (by simpa using accepted name key)

/-- The target of an accepted job defines no secret again.  A job on `local` is
not looked at, but an accepted inventory has no such target. -/
theorem apart_of_targetSecretProblems {jobId : Bytes}
    (reserved : inventory.targets.lookup localTarget = none)
    (accepted : targetSecretProblems workflow inventory (jobId, job) = []) :
    workflow.secrets.Apart (targetSecrets inventory job.target) ∧
      inventory.secrets.Apart (targetSecrets inventory job.target) := by
  cases known : inventory.targets.lookup job.target with
  | none => simp [Table.Apart, targetSecrets, known]
  | some t =>
      have remote : job.target ≠ localTarget := by
        intro local_
        rw [local_, reserved] at known
        cases known
      simp only [targetSecretProblems, if_neg remote, known, List.filterMap_eq_nil_iff,
        Option.map_eq_none_iff] at accepted
      have free (name : Bytes) (defined : t.secrets.lookup name ≠ none) :
          workflow.secrets.lookup name = none ∧ inventory.secrets.lookup name = none := by
        have key := isSome_lookup_iff.mp (Option.isSome_iff_ne_none.mpr defined)
        have nowhere := accepted name key
        simp only [alsoDefined] at nowhere
        split_ifs at nowhere with own shared
        exact ⟨by simpa using own, by simpa using shared⟩
      simp only [targetSecrets, known, Option.map_some, Option.getD_some]
      refine ⟨fun name => ?_, fun name => ?_⟩
      · by_cases defined : t.secrets.lookup name = none
        · exact .inr defined
        · exact .inl (free name defined).1
      · by_cases defined : t.secrets.lookup name = none
        · exact .inr defined
        · exact .inl (free name defined).2

theorem no_local_of_inventoryProblems (accepted : inventoryProblems inventory = []) :
    inventory.targets.lookup localTarget = none := by
  simp only [inventoryProblems, List.append_eq_nil_iff] at accepted
  by_contra defined
  have refused := accepted.1.1.2
  rw [if_pos (Option.isSome_iff_ne_none.mpr defined)] at refused
  cases refused

/-- No two of the maps that an accepted job reads share a name. -/
theorem secretMaps_apart {project : Project} (accepted : project.Accepted) {jobId : Bytes}
    (found : project.workflow.jobs.lookup jobId = some job) :
    (secretMaps project.workflow project.inventory job).Pairwise Table.Apart := by
  obtain ⟨inventoryFine, workflowFine⟩ := accepted
  have listed := mem_jobsInOrder found
  simp only [structureProblems, List.append_eq_nil_iff, List.flatMap_eq_nil_iff] at workflowFine
  obtain ⟨⟨⟨-, shared⟩, targets⟩, -⟩ := workflowFine
  obtain ⟨ofWorkflow, ofInventory⟩ :=
    apart_of_targetSecretProblems (no_local_of_inventoryProblems inventoryFine) (targets _ listed)
  simp only [secretMaps, List.pairwise_cons, List.mem_cons, List.not_mem_nil, or_false,
    forall_eq_or_imp, forall_eq, false_implies, implies_true, List.Pairwise.nil, and_true]
  exact ⟨⟨ofInventory, apart_of_sharedSecretProblems shared⟩, ofWorkflow.symm⟩

/-! ## One meaning -/

theorem holder_unique
    (apart : (secretMaps workflow inventory job).Pairwise Table.Apart) {name : Bytes}
    {first second : Holder}
    (inFirst : ((first.secrets workflow inventory job).lookup name).isSome)
    (inSecond : ((second.secrets workflow inventory job).lookup name).isSome) :
    first = second := by
  simp only [secretMaps, List.pairwise_cons, List.mem_cons, List.not_mem_nil, or_false,
    forall_eq_or_imp, forall_eq] at apart
  obtain ⟨⟨inventoryTarget, inventoryWorkflow⟩, targetWorkflow, -⟩ := apart
  have clash {a b : Table Bytes Bytes} (apart : a.Apart b) (inA : (a.lookup name).isSome)
      (inB : (b.lookup name).isSome) : False := by
    rcases apart name with absent | absent
    · rw [absent] at inA
      cases inA
    · rw [absent] at inB
      cases inB
  cases first with
  | workflow =>
      cases second with
      | workflow => rfl
      | inventory => exact (clash inventoryWorkflow inSecond inFirst).elim
      | target => exact (clash targetWorkflow inSecond inFirst).elim
  | inventory =>
      cases second with
      | workflow => exact (clash inventoryWorkflow inFirst inSecond).elim
      | inventory => rfl
      | target => exact (clash inventoryTarget inFirst inSecond).elim
  | target =>
      cases second with
      | workflow => exact (clash targetWorkflow inFirst inSecond).elim
      | inventory => exact (clash inventoryTarget inSecond inFirst).elim
      | target => rfl

theorem holder_of_visible (apart : (secretMaps workflow inventory job).Pairwise Table.Apart)
    {name : Bytes} (visible : ((secretScope workflow inventory (some job.target)).lookup name).isSome) :
    ∃ holder : Holder, ((holder.secrets workflow inventory job).lookup name).isSome := by
  rw [lookup_secretScope] at visible
  obtain ⟨envelope, value⟩ := Option.isSome_iff_exists.mp visible
  obtain ⟨source, member, defined⟩ := (Table.lookup_mergeAll apart name envelope).mp value
  simp only [secretMaps, List.mem_cons, List.not_mem_nil, or_false] at member
  rcases member with rfl | rfl | rfl
  · exact ⟨.inventory, by simp [Holder.secrets, defined]⟩
  · exact ⟨.target, by simp [Holder.secrets, defined]⟩
  · exact ⟨.workflow, by simp [Holder.secrets, defined]⟩

/-- What is in scope without a target is in scope with one, and is the same secret. -/
theorem lookup_secretScope_of_none
    (apart : (secretMaps workflow inventory job).Pairwise Table.Apart) {name envelope : Bytes}
    (shared : (secretScope workflow inventory none).lookup name = some envelope) :
    (secretScope workflow inventory (some job.target)).lookup name = some envelope := by
  rw [lookup_secretScope, Table.lookup_mergeAll apart]
  rw [lookup_secretScope_none, Option.or_eq_some_iff] at shared
  rcases shared with own | ⟨-, inventoryWide⟩
  · exact ⟨workflow.secrets, by simp [secretMaps], own⟩
  · exact ⟨inventory.secrets, by simp [secretMaps], inventoryWide⟩

/-- In an accepted project every secret that a job sees is defined in exactly one
of its three maps.  `resolve` reads the same secret in whatever order they are
merged.  Wherever `check` scans for the job with its target, it looks names up in
that scope; in the workflow's own env, scanned without one, a name that is
visible means the same secret.  So whatever the order, the scope has each secret
that a text scanned for the job reads, and no `run:` text reads one. -/
theorem secret_has_one_meaning (project : Project) (accepted : project.Accepted)
    (jobId : Bytes) (job : Job) (found : project.workflow.jobs.lookup jobId = some job) :
    (∀ name, ((secretScope project.workflow project.inventory (some job.target)).lookup
        name).isSome →
      ∃! holder : Holder,
        ((holder.secrets project.workflow project.inventory job).lookup name).isSome) ∧
    (∀ order, order.Perm (secretMaps project.workflow project.inventory job) →
      ∀ reveal outputs name,
        (resolveExpr project.workflow project.inventory reveal job outputs (.secrets name)).value
          = ((Table.mergeAll order).lookup name).map reveal) ∧
    (∀ scope, ScannedFor job scope → scope.target ≠ none → ∀ order,
      order.Perm (secretMaps project.workflow project.inventory job) → ∀ name,
        (secretScope project.workflow project.inventory scope.target).lookup name
          = (Table.mergeAll order).lookup name) ∧
    (∀ scope, ScannedFor job scope → ∀ name envelope,
      (secretScope project.workflow project.inventory scope.target).lookup name
          = some envelope →
        (secretScope project.workflow project.inventory (some job.target)).lookup name
          = some envelope) ∧
    (∀ scope text, Scanned project.workflow project.plugins job scope text →
      ScannedFor job scope ∧ ∀ name, .secrets name ∈ exprsOf text →
        scope.isRun = false ∧ ∀ order,
          order.Perm (secretMaps project.workflow project.inventory job) →
            ((Table.mergeAll order).lookup name).isSome) := by
  have apart := secretMaps_apart accepted found
  have anyOrder {order : List (Table Bytes Bytes)}
      (perm : order.Perm (secretMaps project.workflow project.inventory job)) (name : Bytes) :
      (secretScope project.workflow project.inventory (some job.target)).lookup name
        = (Table.mergeAll order).lookup name := by
    rw [lookup_secretScope, Table.lookup_mergeAll_perm apart perm]
  have sees {scope : Scope} (scanned : ScannedFor job scope) {name envelope : Bytes}
      (visible : (secretScope project.workflow project.inventory scope.target).lookup name
        = some envelope) :
      (secretScope project.workflow project.inventory (some job.target)).lookup name
        = some envelope := by
    cases scanned with
    | workflowEnv => exact lookup_secretScope_of_none apart visible
    | jobEnv => exact visible
    | stepEnv earlier => exact visible
    | run earlier => exact visible
    | withValues earlier => exact visible
  refine ⟨fun name visible => ?_, fun order perm reveal outputs name => ?_, ?_, ?_, ?_⟩
  · obtain ⟨holder, defined⟩ := holder_of_visible apart visible
    exact ⟨holder, defined, fun other also => holder_unique apart also defined⟩
  · simp only [resolveExpr, anyOrder perm]
  · intro scope scanned targeted order perm name
    cases scanned with
    | workflowEnv => exact absurd rfl targeted
    | jobEnv => exact anyOrder perm name
    | stepEnv earlier => exact anyOrder perm name
    | run earlier => exact anyOrder perm name
    | withValues earlier => exact anyOrder perm name
  · exact fun scope scanned name envelope visible => sees scanned visible
  · intro scope text scanned
    refine ⟨scanned.scannedFor, fun name read => ?_⟩
    obtain ⟨here, inside⟩ : ∃ here, scanText project.workflow project.inventory scope here text
        ⊆ check project.workflow project.inventory project.plugins := scanned.reported found
    have passed : check project.workflow project.inventory project.plugins = [] :=
      (List.append_eq_nil_iff.mp accepted.2).2
    rw [passed] at inside
    obtain ⟨notRun, visible⟩ := secret_visible (List.subset_nil.mp inside) read
    refine ⟨notRun, fun order perm => ?_⟩
    obtain ⟨envelope, known⟩ := Option.isSome_iff_exists.mp visible
    rw [← anyOrder perm, sees scanned.scannedFor known]
    rfl

/-! ## A project with a secret in each of the three maps -/

def backupJob : Job where
  target := bytes "db1"
  env := Table.ofPairs [(bytes "KEY", .string (bytes "$\x7b\x7b secrets.KEY \x7d\x7d"))]
  steps := [{ kind := .run (bytes "backup $KEY $TOKEN") }]

/-- The workflow's env reads a secret of the inventory, the job one of its target. -/
def backupProject : Project where
  workflow :=
    { env := Table.ofPairs [(bytes "TOKEN", .string (bytes "$\x7b\x7b secrets.TOKEN \x7d\x7d"))]
      secrets := Table.ofPairs [(bytes "PIN", bytes "sealed-1")]
      jobs := Table.ofPairs [(bytes "backup", backupJob)] }
  inventory :=
    { secrets := Table.ofPairs [(bytes "TOKEN", bytes "sealed-2")]
      targets := Table.ofPairs
        [(bytes "db1",
          { host := bytes "db1.example"
            secrets := Table.ofPairs [(bytes "KEY", bytes "sealed-3")] })] }
  plugins := ∅

theorem secret_has_one_meaning_backup :
    (∃! holder : Holder, ((holder.secrets backupProject.workflow backupProject.inventory
        backupJob).lookup (bytes "KEY")).isSome) ∧
      (resolveExpr backupProject.workflow backupProject.inventory id backupJob ∅
        (.secrets (bytes "KEY"))).value = some (bytes "sealed-3") := by
  have accepted : backupProject.Accepted := by decide
  have found : backupProject.workflow.jobs.lookup (bytes "backup") = some backupJob := rfl
  obtain ⟨unique, anyOrder, -, -⟩ :=
    secret_has_one_meaning backupProject accepted (bytes "backup") backupJob found
  refine ⟨unique (bytes "KEY") (by decide), ?_⟩
  rw [anyOrder _ (List.Perm.refl _) id ∅ (bytes "KEY")]
  decide

/-- The workflow's env is not checked against the scope of the job: the target's
`KEY` is in the one and not in the other. -/
theorem workflow_env_scope_backup :
    ¬ ∀ project : Project, project.Accepted → ∀ jobId job,
      project.workflow.jobs.lookup jobId = some job →
      ∀ scope, ScannedFor job scope → ∀ name,
        (secretScope project.workflow project.inventory (some job.target)).lookup name
          = (secretScope project.workflow project.inventory scope.target).lookup name := by
  intro claim
  have same := claim backupProject (by decide) (bytes "backup") backupJob rfl
    { earlier := ∅, inEnv := true, target := none, isRun := false } .workflowEnv (bytes "KEY")
  exact absurd same (by decide)

end Qwe.Template
