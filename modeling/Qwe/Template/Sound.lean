import Qwe.Template.Strings

/-!
# Validation is sound for evaluation

`check` and `resolve` look names up on their own: `check` passes the workflow's
env without a target and the env of a job before any step, `resolve` evaluates
the merged env for the job's target.  What an accepted workflow reads is defined
where `resolve` looks, so only an env name that nothing declares and an output
that was not set are without a value.
-/

set_option autoImplicit false
set_option maxRecDepth 4000

namespace Qwe.Template

open Qwe.Holes
open Qwe.Redact (Bytes)

/-! ## What `resolve` evaluates -/

/-- Where a template stands: in the merged env, or in `run:` and `with:`. -/
inductive Position where
  | env
  | body
deriving DecidableEq, Repr

section Positions

variable (workflow : Workflow) (inventory : Inventory) (reveal : Bytes → Bytes) (job : Job)
  (step : Step) (outputs : Outputs)

/-- The texts that `resolve` evaluates at a position. -/
def textsAt : Position → List Bytes
  | .env => (declaredEnv workflow job step).pairs.map Prod.snd
  | .body => step.run.toList ++ (step.with_.map Data.entryStrings).getD []

/-- The resolver that `resolve` evaluates them with. -/
def resolverAt : Position → Expr → Found
  | .env => resolveExpr workflow inventory reveal job outputs
  | .body => resolveAll workflow inventory reveal job step outputs

/-- The env values of the resolved step are the declared ones, evaluated. -/
theorem finalEnv_texts {name value : Bytes}
    (declared : (declaredEnv workflow job step).lookup name = some value) :
    value ∈ textsAt workflow job step .env ∧
      (finalEnv workflow inventory reveal job step outputs).lookup name
        = some
          (substituted (resolverAt workflow inventory reveal job step outputs .env) value) := by
  refine ⟨List.mem_map_of_mem (f := Prod.snd) (Table.lookup_eq_some_iff.mp declared), ?_⟩
  rw [lookup_finalEnv, declared]
  rfl

section Returned

variable {workflow inventory reveal job step outputs}
  {outputPath : Option Bytes} {token : Bytes} {resolved : Resolved}
  (returned : resolve workflow inventory reveal job step outputs outputPath token = some resolved)

include returned

theorem resolve_with :
    (resolved.with_.map Data.entryStrings).getD []
      = ((step.with_.map Data.entryStrings).getD []).map
          (substituted (resolveAll workflow inventory reveal job step outputs)) := by
  obtain ⟨copied, copies, same, -⟩ := resolve_copied returned
  rw [same]
  exact copyWith_strings _ copies

/-- Two names are set behind the declared env. -/
theorem resolve_env_lookup {name : Bytes} (notOutput : name ≠ bytes "QWE_OUTPUT")
    (notStep : name ≠ bytes "QWE_STEP") :
    resolved.env.lookup name
      = (finalEnv workflow inventory reveal job step outputs).lookup name := by
  obtain ⟨copied, -, rfl⟩ := Option.map_eq_some_iff.mp returned
  cases outputPath with
  | none =>
      simp only
      split_ifs with remote
      · exact AList.lookup_insert_ne notStep
      · rfl
  | some path =>
      simp only
      split_ifs with remote file
      · rw [AList.lookup_insert_ne notStep, AList.lookup_insert_ne notOutput]
      · exact AList.lookup_insert_ne notStep
      · exact AList.lookup_insert_ne notOutput
      · rfl

/-- `run:` and the strings of `with:` in the resolved step are those of the step, evaluated. -/
theorem resolve_body :
    resolved.run.toList ++ (resolved.with_.map Data.entryStrings).getD []
      = (textsAt workflow job step .body).map
          (substituted (resolverAt workflow inventory reveal job step outputs .body)) := by
  rw [resolve_run returned, resolve_with returned, textsAt, List.map_append]
  cases step.run with
  | none => rfl
  | some script => rfl

end Returned

/-! ## What an expression reads -/

/-- The name stands where `resolve` looks it up, and no env value reads `env`. -/
def Defined (i : Nat) (position : Position) : Expr → Prop
  | .env _ => position = .body
  | .vars name => (((inventory.vars job.target).getD ∅).lookup name).isSome
  | .secrets name => ((secretScope workflow inventory (some job.target)).lookup name).isSome
  | .steps id _ => ∃ m earlier, m < i ∧ job.steps[m]? = some earlier ∧ earlier.id = some id

/-- An env name that is not declared, or an output that was not set. -/
def Unset : Expr → Prop
  | .env name => (declaredEnv workflow job step).lookup name = none
  | .steps id key => outputAt outputs id key = none
  | _ => False

end Positions

variable {workflow : Workflow} {inventory : Inventory} {plugins : Plugins} {reveal : Bytes → Bytes}
  {jobId : Bytes} {job : Job} {i : Nat} {step : Step} {outputs : Outputs} {position : Position}

theorem resolverAt_direct {parsed : Expr} (direct : ∀ name, parsed ≠ .env name) :
    resolverAt workflow inventory reveal job step outputs position parsed
      = resolveExpr workflow inventory reveal job outputs parsed := by
  cases position with
  | env => rfl
  | body => exact resolveAll_direct direct

/-- What is defined has a value, unless it is a name or an output that is not set. -/
theorem value_eq_none_iff {parsed : Expr}
    (defined : Defined workflow inventory job i position parsed) :
    (resolverAt workflow inventory reveal job step outputs position parsed).value = none ↔
      Unset workflow job step outputs parsed := by
  cases parsed with
  | env name =>
      obtain rfl := defined
      simp only [resolverAt, resolveAll, Unset, lookup_finalEnv, Option.map_eq_none_iff]
  | vars name =>
      obtain ⟨value, known⟩ := Option.isSome_iff_exists.mp defined
      rw [resolverAt_direct fun _ => Expr.noConfusion]
      simp only [resolveExpr, Unset, known, Option.map_some, reduceCtorEq]
  | secrets name =>
      obtain ⟨envelope, known⟩ := Option.isSome_iff_exists.mp defined
      rw [resolverAt_direct fun _ => Expr.noConfusion]
      simp only [resolveExpr, Unset, known, Option.map_some, reduceCtorEq]
  | steps id key =>
      rw [resolverAt_direct fun _ => Expr.noConfusion]
      simp only [resolveExpr, Unset, Option.map_eq_none_iff]

section Job

variable (accepted : JobAccepted workflow inventory plugins jobId job)

include accepted

/-- The target of an accepted job has vars. -/
theorem JobAccepted.vars_known : ∃ vars, inventory.vars job.target = some vars := by
  have known := accepted.target
  unfold Inventory.vars
  split_ifs with here
  · exact ⟨∅, rfl⟩
  · rw [Inventory.hasTarget, Bool.or_eq_true, beq_iff_eq] at known
    obtain ⟨target, found⟩ := Option.isSome_iff_exists.mp (known.resolve_left here)
    exact ⟨target.vars, by rw [found]; rfl⟩

/-- What a place admits is defined for the job. -/
theorem JobAccepted.defined_of_admits {scope : Scope} {parsed : Expr}
    (admitted : scope.Admits workflow inventory parsed)
    (inEnv : position = .env → scope.inEnv = true)
    (target : scope.target = none ∨ scope.target = some job.target)
    (origin : ∀ id, (scope.earlier.lookup id).isSome →
      ∃ m earlier, m < i ∧ job.steps[m]? = some earlier ∧ earlier.id = some id) :
    Defined workflow inventory job i position parsed := by
  cases parsed with
  | env name =>
      cases position with
      | env =>
          have notEnv : scope.inEnv = false := admitted
          rw [inEnv rfl] at notEnv
          cases notEnv
      | body => rfl
  | vars name =>
      obtain ⟨place, known, visible⟩ := admitted
      rcases target with none_ | own
      · rw [none_] at known
        cases known
      · rw [own] at known
        cases known
        obtain ⟨vars, found⟩ := accepted.vars_known
        rw [Defined, found]
        exact visible vars found
  | secrets name =>
      have visible := admitted.2
      rcases target with none_ | own
      · rw [none_] at visible
        exact mem_secretScope_target visible
      · rw [own] at visible
        exact visible
  | steps id key => exact origin id admitted

/-- A text that `resolve` evaluates has passed. -/
theorem JobAccepted.text_scanned (at_i : job.steps[i]? = some step) {text expr : Bytes}
    (placed : text ∈ textsAt workflow job step position) (read : expr ∈ eachExpr text) :
    ∃ scope pointer, scanText workflow inventory scope pointer text = [] ∧
      (position = .env → scope.inEnv = true) ∧
      (scope.target = none ∨ scope.target = some job.target) ∧
      ∀ id, (scope.earlier.lookup id).isSome →
        ∃ m earlier, m < i ∧ job.steps[m]? = some earlier ∧ earlier.id = some id := by
  cases position with
  | env =>
      obtain ⟨⟨name, value⟩, entry, rfl⟩ := List.mem_map.mp placed
      obtain ⟨scope, pointer, passed, inEnv, rest⟩ :=
        accepted.declared_scanned at_i (Table.lookup_eq_some_iff.mpr entry) read
      exact ⟨scope, pointer, passed, fun _ => inEnv, rest⟩
  | body =>
      obtain ⟨k, noted, fine, origin⟩ := accepted.step_checked at_i
      simp only [checkStep, List.append_eq_nil_iff] at fine
      rw [textsAt, List.mem_append] at placed
      rcases placed with inRun | inWith
      · have has := Option.mem_toList.mp inRun
        simp only [Option.mem_def.mp has] at fine
        exact ⟨_, _, fine.1.2, nofun, .inr rfl, origin⟩
      · cases has : step.with_ with
        | none =>
            rw [has] at inWith
            cases inWith
        | some entries =>
            rw [has] at inWith
            simp only [has] at fine
            obtain ⟨here, passed⟩ := scanText_of_scan fine.2 rfl inWith
            exact ⟨_, here, passed, nofun, .inr rfl, origin⟩

/-- A declared env value stands in the resolved step as it was evaluated. -/
theorem JobAccepted.resolve_env (at_i : job.steps[i]? = some step) {outputPath : Option Bytes}
    {token : Bytes} {resolved : Resolved}
    (returned : resolve workflow inventory reveal job step outputs outputPath token
      = some resolved)
    {name value : Bytes} (declared : (declaredEnv workflow job step).lookup name = some value) :
    resolved.env.lookup name
      = some (substituted (resolverAt workflow inventory reveal job step outputs .env) value) := by
  obtain ⟨notOutput, notStep⟩ := accepted.declared_name_free at_i declared
  rw [resolve_env_lookup returned notOutput notStep]
  exact (finalEnv_texts workflow inventory reveal job step outputs declared).2

/-- What `resolve` evaluates parses, and reads what is defined. -/
theorem JobAccepted.reads_defined (at_i : job.steps[i]? = some step) {text expr : Bytes}
    (placed : text ∈ textsAt workflow job step position) (read : expr ∈ eachExpr text) :
    ∃ parsed, parseExpr expr = .ok parsed ∧ Defined workflow inventory job i position parsed := by
  obtain ⟨scope, pointer, passed, inEnv, target, origin⟩ :=
    accepted.text_scanned at_i placed read
  obtain ⟨parsed, parses, admitted⟩ := admits_of_scanText passed read
  exact ⟨parsed, parses, accepted.defined_of_admits admitted inEnv target origin⟩

end Job

/-- In an accepted workflow every expression that `resolve` evaluates parses and
reads what is defined, so it is replaced by its value; it has none only if it is
an env name that is not declared or an output that was not set.  The step that
`resolve` returns has its env values, its `run:` text and the strings of its
`with:` evaluated so. -/
theorem accepted_evaluates {project : Project}
    (accepted : structureProblems project.workflow project.inventory project.plugins = [])
    (found : project.workflow.jobs.lookup jobId = some job) (at_i : job.steps[i]? = some step)
    (reveal : Bytes → Bytes) (outputs : Outputs) :
    (∀ position text inner, text ∈ textsAt project.workflow job step position →
      inner ∈ holes (segments marks text) →
      ∃ parsed, parseExpr (trim inner) = .ok parsed ∧
        Defined project.workflow project.inventory job i position parsed ∧
        valueOf (resolverAt project.workflow project.inventory reveal job step outputs position)
            inner
          = (resolverAt project.workflow project.inventory reveal job step outputs position
              parsed).value.getD [] ∧
        ((resolverAt project.workflow project.inventory reveal job step outputs position
            parsed).value = none ↔
          Unset project.workflow job step outputs parsed)) ∧
    ∀ outputPath token resolved,
      resolve project.workflow project.inventory reveal job step outputs outputPath token
        = some resolved →
      (∀ name value, (declaredEnv project.workflow job step).lookup name = some value →
        value ∈ textsAt project.workflow job step .env ∧
        resolved.env.lookup name
          = some (substituted
              (resolverAt project.workflow project.inventory reveal job step outputs .env)
              value)) ∧
      resolved.run.toList ++ (resolved.with_.map Data.entryStrings).getD []
        = (textsAt project.workflow job step .body).map
            (substituted
              (resolverAt project.workflow project.inventory reveal job step outputs .body)) := by
  have job_accepted := jobAccepted accepted found
  constructor
  · intro position text inner placed present
    have read : trim inner ∈ eachExpr text := List.mem_map_of_mem present
    obtain ⟨parsed, parses, defined⟩ := job_accepted.reads_defined at_i placed read
    refine ⟨parsed, parses, defined, ?_, value_eq_none_iff defined⟩
    rw [valueOf, parses]
  · intro outputPath token resolved returned
    refine ⟨fun name value declared => ⟨?_, job_accepted.resolve_env at_i returned declared⟩,
      resolve_body returned⟩
    exact (finalEnv_texts project.workflow project.inventory reveal job step outputs declared).1

/-! ## A workflow that reads from every scope -/

def buildStep : Step where
  id := some (bytes "build")
  kind := .run (bytes "make PORT=$\x7b\x7b env.PORT \x7d\x7d")

def placeStep : Step where
  kind := .uses (bytes "file.ensure")
  with_ := some
    [(bytes "path", .scalar (.string (bytes "/etc/app"))),
     (bytes "lines", .array
       [.scalar (.string (bytes "sha $\x7b\x7b steps.build.outputs.sha \x7d\x7d"))])]

def deployJob : Job where
  target := bytes "web"
  env := Table.ofPairs [(bytes "PORT", .string (bytes "$\x7b\x7b vars.port \x7d\x7d"))]
  steps := [buildStep, placeStep]

/-- A job on `web`, with a secret of the inventory in the workflow's env. -/
def deployProject : Project where
  workflow :=
    { env := Table.ofPairs [(bytes "DB", .string (bytes "$\x7b\x7b secrets.DB \x7d\x7d"))]
      jobs := Table.ofPairs [(bytes "deploy", deployJob)] }
  inventory :=
    { secrets := Table.ofPairs [(bytes "DB", bytes "sealed")]
      targets := Table.ofPairs
        [(bytes "web",
          { host := bytes "web1"
            vars := Table.ofPairs [(bytes "port", .number (.integral 8080))] })] }
  plugins := ∅

theorem accepted_evaluates_deploy :
    (∃ parsed, parseExpr (trim (bytes " steps.build.outputs.sha ")) = .ok parsed ∧
      Defined deployProject.workflow deployProject.inventory deployJob 1 .body parsed ∧
      valueOf (resolverAt deployProject.workflow deployProject.inventory id deployJob placeStep ∅
          .body) (bytes " steps.build.outputs.sha ")
        = (resolverAt deployProject.workflow deployProject.inventory id deployJob placeStep ∅ .body
            parsed).value.getD [] ∧
      ((resolverAt deployProject.workflow deployProject.inventory id deployJob placeStep ∅ .body
          parsed).value = none ↔
        Unset deployProject.workflow deployJob placeStep ∅ parsed)) ∧
    ∃ resolved, resolve deployProject.workflow deployProject.inventory id deployJob placeStep ∅
        none [] = some resolved ∧
      resolved.env.lookup (bytes "DB") = some (bytes "sealed") := by
  have accepted : structureProblems deployProject.workflow deployProject.inventory
      deployProject.plugins = [] := by decide
  have found : deployProject.workflow.jobs.lookup (bytes "deploy") = some deployJob := rfl
  have at_1 : deployJob.steps[1]? = some placeStep := rfl
  obtain ⟨evaluates, returns⟩ := accepted_evaluates accepted found at_1 id ∅
  constructor
  · have placed : bytes "sha $\x7b\x7b steps.build.outputs.sha \x7d\x7d"
        ∈ textsAt deployProject.workflow deployJob placeStep .body := by decide
    exact evaluates .body _ _ placed (by decide)
  · have starts : (resolve deployProject.workflow deployProject.inventory id deployJob placeStep ∅
        none []).isSome := rfl
    obtain ⟨resolved, returned⟩ := Option.isSome_iff_exists.mp starts
    refine ⟨resolved, returned, ?_⟩
    have declared : (declaredEnv deployProject.workflow deployJob placeStep).lookup (bytes "DB")
        = some (bytes "$\x7b\x7b secrets.DB \x7d\x7d") := by decide
    rw [((returns none [] resolved returned).1 _ _ declared).2]
    decide

end Qwe.Template
