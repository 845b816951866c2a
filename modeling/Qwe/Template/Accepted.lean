import Qwe.Template.Resolve

/-!
# What validation promises

The facts about an accepted workflow that evaluation relies on: step ids are
names and stand for one step, users are names, a secret that an env value reads
is in scope, and `run:` text reads none.
-/

set_option autoImplicit false

namespace Qwe.Template

open Qwe.Redact (Bytes)

variable {workflow : Workflow} {inventory : Inventory} {plugins : Plugins}

theorem mem_jobsInOrder {jobId : Bytes} {job : Job}
    (found : workflow.jobs.lookup jobId = some job) :
    (jobId, job) ∈ jobsInOrder workflow := by
  have key : jobId ∈ workflow.jobs.keys := by
    rw [← AList.mem_keys, ← AList.lookup_isSome, found]
    rfl
  rw [jobsInOrder, List.mem_filterMap]
  exact ⟨jobId, (List.mem_insertionSort _).mpr key, by rw [found]; rfl⟩

/-! ## Step ids -/

theorem isName_of_idProblem {id : Bytes} (fine : idProblem id = none) : isName id = true := by
  unfold idProblem at fine
  split_ifs at fine with long named
  simpa using named

/-- An id that is accepted is a name and was not seen before. -/
theorem stepIds_fresh {base : Bytes} {steps : List Step} {i : Nat} {seen : Table Bytes Nat}
    (accepted : stepIdProblems base i seen steps = []) {k : Nat} {step : Step} {id : Bytes}
    (at_k : steps[k]? = some step) (has : step.id = some id) :
    isName id = true ∧ seen.lookup id = none := by
  induction steps generalizing i seen k with
  | nil => cases at_k
  | cons first rest inductionHypothesis =>
      rw [stepIdProblems] at accepted
      cases own : first.id with
      | none =>
          rw [own] at accepted
          cases k with
          | zero =>
              cases at_k
              rw [own] at has
              cases has
          | succ k => exact inductionHypothesis accepted at_k
      | some other =>
          rw [own] at accepted
          cases before : seen.lookup other with
          | some place => simp [before] at accepted
          | none =>
              simp only [before, List.append_eq_nil_iff, List.map_eq_nil_iff,
                Option.toList_eq_nil_iff] at accepted
              cases k with
              | zero =>
                  cases at_k
                  rw [own] at has
                  cases has
                  exact ⟨isName_of_idProblem accepted.1, before⟩
              | succ k =>
                  obtain ⟨named, fresh⟩ := inductionHypothesis accepted.2 at_k
                  exact ⟨named, (AList.lookup_insert_eq_none.mp fresh).2⟩

/-- No two steps share an id. -/
theorem stepIds_distinct {base : Bytes} {steps : List Step} {i : Nat} {seen : Table Bytes Nat}
    (accepted : stepIdProblems base i seen steps = []) {k l : Nat} {a b : Step} {id : Bytes}
    (less : k < l) (at_k : steps[k]? = some a) (at_l : steps[l]? = some b)
    (has : a.id = some id) : b.id ≠ some id := by
  intro again
  induction steps generalizing i seen k l with
  | nil => cases at_k
  | cons first rest inductionHypothesis =>
      obtain ⟨l, rfl⟩ : ∃ l', l = l' + 1 := ⟨l - 1, by omega⟩
      rw [stepIdProblems] at accepted
      cases k with
      | succ k =>
          cases own : first.id with
          | none =>
              rw [own] at accepted
              exact inductionHypothesis accepted (Nat.lt_of_succ_lt_succ less) at_k at_l
          | some other =>
              rw [own] at accepted
              cases before : seen.lookup other with
              | some place => simp [before] at accepted
              | none =>
                  simp only [before, List.append_eq_nil_iff] at accepted
                  exact inductionHypothesis accepted.2 (Nat.lt_of_succ_lt_succ less) at_k at_l
      | zero =>
          cases at_k
          rw [has] at accepted
          cases before : seen.lookup id with
          | some place => simp [before] at accepted
          | none =>
              simp only [before, List.append_eq_nil_iff] at accepted
              have fresh := (stepIds_fresh accepted.2 at_l again).2
              rw [AList.lookup_insert] at fresh
              cases fresh

/-! ## Env values and `run:` texts -/

/-- What a place that passed lets an expression read. -/
def Scope.Admits (workflow : Workflow) (inventory : Inventory) (scope : Scope) : Expr → Prop
  | .env _ => scope.inEnv = false
  | .secrets name =>
      scope.isRun = false ∧ ((secretScope workflow inventory scope.target).lookup name).isSome
  | .vars name =>
      ∃ target, scope.target = some target ∧
        ∀ vars, inventory.vars target = some vars → (vars.lookup name).isSome
  | .steps id _ => (scope.earlier.lookup id).isSome

theorem admits_of_parsedProblem {scope : Scope} {expr : Bytes} {parsed : Expr}
    (fine : parsedProblem workflow inventory scope expr parsed = none) :
    scope.Admits workflow inventory parsed := by
  cases parsed with
  | env name =>
      simp only [parsedProblem] at fine
      split_ifs at fine with inEnv
      exact Bool.eq_false_of_not_eq_true inEnv
  | secrets name =>
      simp only [parsedProblem] at fine
      split_ifs at fine with run missing
      exact ⟨Bool.eq_false_of_not_eq_true run, Option.isSome_iff_ne_none.mpr missing⟩
  | vars name =>
      cases place : scope.target with
      | none =>
          simp only [parsedProblem, place] at fine
          cases fine
      | some target =>
          refine ⟨target, place, fun vars known => ?_⟩
          simp only [parsedProblem, place, known] at fine
          split_ifs at fine with missing
          exact Option.isSome_iff_ne_none.mpr missing
  | steps id key =>
      apply Option.isSome_iff_ne_none.mpr
      intro missing
      simp only [parsedProblem, missing] at fine
      cases fine

/-- In a text that passed every expression parses and reads what its place admits. -/
theorem admits_of_scanText {scope : Scope} {pointer text expr : Bytes}
    (accepted : scanText workflow inventory scope pointer text = []) (read : expr ∈ eachExpr text) :
    ∃ parsed, parseExpr expr = .ok parsed ∧ scope.Admits workflow inventory parsed := by
  rw [scanText, List.filterMap_eq_nil_iff] at accepted
  have fine := accepted expr read
  rw [Option.map_eq_none_iff, exprProblem] at fine
  cases parses : parseExpr expr with
  | error message =>
      rw [parses] at fine
      cases fine
  | ok parsed =>
      rw [parses] at fine
      exact ⟨parsed, rfl, admits_of_parsedProblem fine⟩

theorem secret_visible {scope : Scope} {pointer text name : Bytes}
    (accepted : scanText workflow inventory scope pointer text = [])
    (read : .secrets name ∈ exprsOf text) :
    scope.isRun = false ∧ ((secretScope workflow inventory scope.target).lookup name).isSome := by
  obtain ⟨expr, present, parses⟩ := mem_eachExpr_of_mem_exprsOf read
  obtain ⟨parsed, same, admitted⟩ := admits_of_scanText accepted present
  rw [parses] at same
  cases same
  exact admitted

/-- The strings of an env that passed have passed. -/
theorem scanText_of_checkEnv {scope : Scope} {pointer : Bytes} {env : Table Bytes Scalar}
    (accepted : checkEnv workflow inventory scope pointer env = []) {name text : Bytes}
    (declared : env.lookup name = some (.string text)) :
    ∃ here, scanText workflow inventory scope here text = [] := by
  rw [checkEnv, List.flatMap_eq_nil_iff] at accepted
  have fine := accepted _ (Table.lookup_eq_some_iff.mp declared)
  simp only [envProblems] at fine
  split_ifs at fine
  exact ⟨_, fine⟩

/-- An env that passed sets no name that qwe sets itself. -/
theorem name_free_of_checkEnv {scope : Scope} {pointer : Bytes} {env : Table Bytes Scalar}
    (accepted : checkEnv workflow inventory scope pointer env = []) {name : Bytes} {value : Scalar}
    (declared : env.lookup name = some value) :
    name ≠ bytes "QWE_OUTPUT" ∧ name ≠ bytes "QWE_STEP" := by
  rw [checkEnv, List.flatMap_eq_nil_iff] at accepted
  have fine := accepted _ (Table.lookup_eq_some_iff.mp declared)
  simp only [envProblems] at fine
  split_ifs at fine with named output token
  exact ⟨output, token⟩

/-- A value with a template in it is a string. -/
theorem string_of_eachExpr {value : Scalar} {expr : Bytes}
    (read : expr ∈ eachExpr (envString value)) :
    ∃ text, value = .string text := by
  have templated : 36 ∈ envString value := by
    by_contra plain
    rw [eachExpr_plain plain] at read
    cases read
  cases value with
  | string text => exact ⟨text, rfl⟩
  | number n =>
      cases n with
      | integral n => exact absurd templated (dollar_not_mem_decimal _)
      | infinite negative => exact absurd templated (dollar_not_mem_decimal _)
      | fractional shown => exact absurd templated shown.dollar_not_mem
  | boolean b =>
      cases b with
      | false => exact absurd templated (by decide)
      | true => exact absurd templated (by decide)

/-! ## An accepted job -/

/-- What an accepted job has passed. -/
structure JobAccepted (workflow : Workflow) (inventory : Inventory) (plugins : Plugins)
    (jobId : Bytes) (job : Job) : Prop where
  target : inventory.hasTarget job.target = true
  stepIds : stepIdProblems (jobPointer jobId) 0 ∅ job.steps = []
  become : becomeProblems (jobId, job) = []
  workflowEnv : checkEnv workflow inventory
    { earlier := ∅, inEnv := true, target := none, isRun := false } (bytes "/env") workflow.env = []
  env : checkEnv workflow inventory
    { earlier := ∅, inEnv := true, target := some job.target, isRun := false }
    (jobPointer jobId ++ bytes "/env") job.env = []
  steps : checkSteps workflow inventory plugins job.target (jobPointer jobId) 0 ∅ job.steps = []

theorem jobAccepted (accepted : structureProblems workflow inventory plugins = [])
    {jobId : Bytes} {job : Job} (found : workflow.jobs.lookup jobId = some job) :
    JobAccepted workflow inventory plugins jobId job := by
  have listed := mem_jobsInOrder found
  simp only [structureProblems, check, List.append_eq_nil_iff, List.flatMap_eq_nil_iff]
    at accepted
  obtain ⟨⟨⟨⟨⟨jobs, become⟩, -⟩, -⟩, -⟩, workflowEnv, checks⟩ := accepted
  have structured := jobs _ listed
  simp only [jobProblems, List.append_eq_nil_iff] at structured
  have checked := checks _ listed
  refine ⟨?_, structured.2, become _ listed, workflowEnv, checked.1, checked.2⟩
  by_contra unknown
  have refused := structured.1.1
  rw [if_neg unknown] at refused
  cases refused

/-- What is noted before a step is the id of a step before it. -/
theorem noteStep_lookup {earlier : Earlier} {step : Step} {id : Bytes}
    (noted : ((noteStep plugins earlier step).lookup id).isSome) :
    (earlier.lookup id).isSome ∨ step.id = some id := by
  unfold noteStep at noted
  cases own : step.id with
  | none =>
      rw [own] at noted
      exact .inl noted
  | some other =>
      rw [own] at noted
      by_cases same : id = other
      · exact .inr (congrArg some same.symm)
      · rw [AList.lookup_insert_ne same] at noted
        exact .inl noted

theorem checkSteps_at {target base : Bytes} {steps : List Step} {i : Nat} {earlier : Earlier}
    (accepted : checkSteps workflow inventory plugins target base i earlier steps = [])
    {k : Nat} {step : Step} (at_k : steps[k]? = some step) :
    ∃ i noted, checkStep workflow inventory target base noted i step = [] ∧
      ∀ id, (noted.lookup id).isSome → (earlier.lookup id).isSome ∨
        ∃ m other, m < k ∧ steps[m]? = some other ∧ other.id = some id := by
  induction steps generalizing i earlier k with
  | nil => cases at_k
  | cons first rest inductionHypothesis =>
      rw [checkSteps, List.append_eq_nil_iff] at accepted
      cases k with
      | zero =>
          cases at_k
          exact ⟨i, earlier, accepted.1, fun id known => .inl known⟩
      | succ k =>
          obtain ⟨j, noted, fine, origin⟩ := inductionHypothesis accepted.2 at_k
          refine ⟨j, noted, fine, fun id known => ?_⟩
          rcases origin id known with before | ⟨m, other, less, at_m, has⟩
          · rcases noteStep_lookup before with old | has
            · exact .inl old
            · exact .inr ⟨0, first, Nat.succ_pos k, rfl, has⟩
          · exact .inr ⟨m + 1, other, Nat.succ_lt_succ less, at_m, has⟩

namespace JobAccepted

variable {jobId : Bytes} {job : Job} (accepted : JobAccepted workflow inventory plugins jobId job)
  {i : Nat} {step : Step}

include accepted

theorem stepId_plain (at_i : job.steps[i]? = some step) {id : Bytes} (has : step.id = some id) :
    36 ∉ id :=
  not_mem_name (by decide) (by decide) (by decide) (stepIds_fresh accepted.stepIds at_i has).1

theorem stepId_unique {k : Nat} {other : Step} (at_i : job.steps[i]? = some step)
    (at_k : job.steps[k]? = some other) {id : Bytes} (has : step.id = some id)
    (also : other.id = some id) : i = k := by
  rcases Nat.lt_trichotomy i k with less | same | more
  · exact absurd also (stepIds_distinct accepted.stepIds less at_i at_k has)
  · exact same
  · exact absurd has (stepIds_distinct accepted.stepIds more at_k at_i also)

theorem user_named (at_i : job.steps[i]? = some step) {name : Bytes}
    (as_ : step.become = some (.user name)) : isUserName name = true := by
  have become := accepted.become
  rw [becomeProblems, List.flatten_eq_nil_iff] at become
  obtain ⟨bound, here⟩ := List.getElem?_eq_some_iff.mp at_i
  have fine := become _ (List.mem_mapIdx.mpr ⟨i, bound, rfl⟩)
  rw [here, as_, List.map_eq_nil_iff, Option.toList_eq_nil_iff, becomeMessage] at fine
  split_ifs at fine with named
  exact named

theorem user_plain (at_i : job.steps[i]? = some step) {name : Bytes}
    (as_ : step.become = some (.user name)) : 36 ∉ name :=
  not_mem_name (by decide) (by decide) (by decide) (accepted.user_named at_i as_)

theorem user_clean (at_i : job.steps[i]? = some step) {name : Bytes}
    (as_ : step.become = some (.user name)) : 0 ∉ name :=
  not_mem_name (by decide) (by decide) (by decide) (accepted.user_named at_i as_)

/-- What passed in a step passed with the ids of the steps before it. -/
theorem step_checked (at_i : job.steps[i]? = some step) :
    ∃ k noted, checkStep workflow inventory job.target (jobPointer jobId) noted k step = [] ∧
      ∀ id, (noted.lookup id).isSome →
        ∃ m other, m < i ∧ job.steps[m]? = some other ∧ other.id = some id := by
  obtain ⟨k, noted, fine, origin⟩ := checkSteps_at accepted.steps at_i
  exact ⟨k, noted, fine, fun id known => (origin id known).resolve_left (by simp)⟩

theorem run_reads_no_secret (at_i : job.steps[i]? = some step) {text : Bytes}
    (has : step.run = some text) (name : Bytes) : .secrets name ∉ exprsOf text := by
  intro read
  obtain ⟨k, noted, fine, -⟩ := accepted.step_checked at_i
  simp only [checkStep, has, List.append_eq_nil_iff] at fine
  have notRun : true = false := (secret_visible fine.1.2 read).1
  cases notRun

/-- A declared env value with a template in it has passed, in an env that the job sees. -/
theorem declared_scanned (at_i : job.steps[i]? = some step) {name value expr : Bytes}
    (declared : (declaredEnv workflow job step).lookup name = some value)
    (read : expr ∈ eachExpr value) :
    ∃ scope pointer, scanText workflow inventory scope pointer value = [] ∧
      scope.inEnv = true ∧ (scope.target = none ∨ scope.target = some job.target) ∧
      ∀ id, (scope.earlier.lookup id).isSome →
        ∃ m other, m < i ∧ job.steps[m]? = some other ∧ other.id = some id := by
  rw [lookup_declaredEnv, Option.map_eq_some_iff] at declared
  obtain ⟨scalar, source, rfl⟩ := declared
  obtain ⟨text, rfl⟩ := string_of_eachExpr read
  rw [Option.or_eq_some_iff, Option.or_eq_some_iff] at source
  rcases source with (own | ⟨-, ofJob⟩) | ⟨-, ofWorkflow⟩
  · obtain ⟨k, noted, fine, origin⟩ := accepted.step_checked at_i
    simp only [checkStep, List.append_eq_nil_iff] at fine
    obtain ⟨here, passed⟩ := scanText_of_checkEnv fine.1.1 own
    exact ⟨_, here, passed, rfl, .inr rfl, origin⟩
  · obtain ⟨here, passed⟩ := scanText_of_checkEnv accepted.env ofJob
    exact ⟨_, here, passed, rfl, .inr rfl, fun id known => absurd known (by simp)⟩
  · obtain ⟨here, passed⟩ := scanText_of_checkEnv accepted.workflowEnv ofWorkflow
    exact ⟨_, here, passed, rfl, .inl rfl, fun id known => absurd known (by simp)⟩

theorem declared_name_free (at_i : job.steps[i]? = some step) {name value : Bytes}
    (declared : (declaredEnv workflow job step).lookup name = some value) :
    name ≠ bytes "QWE_OUTPUT" ∧ name ≠ bytes "QWE_STEP" := by
  rw [lookup_declaredEnv, Option.map_eq_some_iff] at declared
  obtain ⟨scalar, source, -⟩ := declared
  rw [Option.or_eq_some_iff, Option.or_eq_some_iff] at source
  rcases source with (own | ⟨-, ofJob⟩) | ⟨-, ofWorkflow⟩
  · obtain ⟨k, noted, fine, -⟩ := accepted.step_checked at_i
    simp only [checkStep, List.append_eq_nil_iff] at fine
    exact name_free_of_checkEnv fine.1.1 own
  · exact name_free_of_checkEnv accepted.env ofJob
  · exact name_free_of_checkEnv accepted.workflowEnv ofWorkflow

/-- A secret that reaches the declared env is in scope of the job. -/
theorem declared_secret_visible (at_i : job.steps[i]? = some step) {name value secret : Bytes}
    (declared : (declaredEnv workflow job step).lookup name = some value)
    (read : .secrets secret ∈ exprsOf value) :
    ((secretScope workflow inventory (some job.target)).lookup secret).isSome := by
  obtain ⟨expr, present, -⟩ := mem_eachExpr_of_mem_exprsOf read
  obtain ⟨scope, pointer, passed, -, target, -⟩ := accepted.declared_scanned at_i declared present
  have visible := (secret_visible passed read).2
  rcases target with none_ | own
  · rw [none_] at visible
    exact mem_secretScope_target visible
  · rw [own] at visible
    exact visible

theorem target_known (remote : isRemote job step = true) :
    (inventory.targets.lookup job.target).isSome := by
  have known := accepted.target
  rw [isRemote, Bool.and_eq_true, bne_iff_ne] at remote
  rw [Inventory.hasTarget, Bool.or_eq_true, beq_iff_eq] at known
  exact known.resolve_left remote.1

end JobAccepted

end Qwe.Template
