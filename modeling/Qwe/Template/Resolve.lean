import Qwe.Template.Check

/-!
# Evaluation

`resolve` and `store` of `src/kernel/lua/template.lua`, and the outputs of a job
as its steps report them.
-/

set_option autoImplicit false

namespace Qwe.Template

open Qwe.Redact (Bytes)

/-- `env_string` -/
def envString : Scalar → Bytes
  | .string s => s
  | .number (.integral n) => formatInt n
  | .number (.infinite _) => decimal (-2 ^ 63)
  | .number (.fractional shown) => shown.text
  | .boolean true => bytes "true"
  | .boolean false => bytes "false"

/-- Step id to output name to value. -/
abbrev Outputs := Table Bytes (Table Bytes Scalar)

def outputAt (outputs : Outputs) (id key : Bytes) : Option Scalar :=
  (outputs.lookup id).bind fun byStep => byStep.lookup key

/-! ## Resolvers -/

section Resolvers

variable (workflow : Workflow) (inventory : Inventory) (reveal : Bytes → Bytes) (job : Job)
  (step : Step) (outputs : Outputs)

/-- The resolver of env values: `steps`, `vars` and `secrets`, never `env`. -/
def resolveExpr : Expr → Found
  | .vars name =>
      let vars := (inventory.vars job.target).getD ∅
      { value := (vars.lookup name).map envString, secret := false, revealed := [] }
  | .secrets name =>
      let plain := ((secretScope workflow inventory (some job.target)).lookup name).map reveal
      { value := plain, secret := false, revealed := plain.toList }
  | .env _ => { value := none, secret := false, revealed := [] }
  | .steps id key =>
      { value := (outputAt outputs id key).map envString, secret := false, revealed := [] }

/-- The declared env: the workflow's, then the job's, then the step's. -/
def declaredEnv : Table Bytes Bytes :=
  [workflow.env, job.env, step.env].foldl (Table.putAll fun _ value => envString value) ∅

/-- `final`, before `QWE_OUTPUT` and `QWE_STEP` are set. -/
def finalEnv : Table Bytes Bytes :=
  Table.putAll
    (fun _ value => substituted (resolveExpr workflow inventory reveal job outputs) value)
    ∅ (declaredEnv workflow job step)

/-- `from_secret` -/
def fromSecret (name : Bytes) : Bool :=
  match (declaredEnv workflow job step).lookup name with
  | some value => (exprsOf value).any Expr.isSecrets
  | none => false

/-- `resolve_all`: env references read the finished env. -/
def resolveAll : Expr → Found
  | .env name =>
      { value := (finalEnv workflow inventory reveal job step outputs).lookup name
        secret := fromSecret workflow job step name
        revealed := [] }
  | parsed => resolveExpr workflow inventory reveal job outputs parsed

end Resolvers

/-- The innermost declaration of a name wins. -/
theorem lookup_declaredEnv (workflow : Workflow) (job : Job) (step : Step) (name : Bytes) :
    (declaredEnv workflow job step).lookup name
      = (((step.env.lookup name).or (job.env.lookup name)).or (workflow.env.lookup name)).map
          envString := by
  simp only [declaredEnv, List.foldl_cons, List.foldl_nil, Table.lookup_putAll, AList.lookup_empty]
  cases step.env.lookup name with
  | some value => rfl
  | none =>
      cases job.env.lookup name with
      | some value => rfl
      | none =>
          cases workflow.env.lookup name with
          | some value => rfl
          | none => rfl

theorem lookup_finalEnv (workflow : Workflow) (inventory : Inventory) (reveal : Bytes → Bytes)
    (job : Job) (step : Step) (outputs : Outputs) (name : Bytes) :
    (finalEnv workflow inventory reveal job step outputs).lookup name
      = ((declaredEnv workflow job step).lookup name).map
          (substituted (resolveExpr workflow inventory reveal job outputs)) := by
  rw [finalEnv, Table.lookup_putAll, AList.lookup_empty, Option.or_none]

/-- Only `env` is read differently once the env is finished. -/
theorem resolveAll_direct {workflow : Workflow} {inventory : Inventory} {reveal : Bytes → Bytes}
    {job : Job} {step : Step} {outputs : Outputs} {parsed : Expr}
    (direct : ∀ name, parsed ≠ .env name) :
    resolveAll workflow inventory reveal job step outputs parsed
      = resolveExpr workflow inventory reveal job outputs parsed := by
  cases parsed with
  | env name => exact absurd rfl (direct name)
  | vars name => rfl
  | secrets name => rfl
  | steps id key => rfl

/-! ## The step as the child runs it -/

mutual

/-- `copy`, and what it adds to the redaction set.  The metatable of an envelope is
locked: `getmetatable` answers with a string, and `setmetatable` raises. -/
def copyData (resolve : Expr → Found) : Data → Option (Data × List Bytes)
  | .scalar (.string s) =>
      some (.scalar (.string (substitute resolve s).text), (substitute resolve s).masked)
  | .scalar value => some (.scalar value, [])
  | .null => some (.null, [])
  | .secret _ => none
  | .array items => (copyItems resolve items).map fun copied => (.array copied.1, copied.2)
  | .map entries => (copyEntries resolve entries).map fun copied => (.map copied.1, copied.2)

def copyItems (resolve : Expr → Found) : List Data → Option (List Data × List Bytes)
  | [] => some ([], [])
  | item :: rest => do
      let first ← copyData resolve item
      let others ← copyItems resolve rest
      return (first.1 :: others.1, first.2 ++ others.2)

def copyEntries (resolve : Expr → Found) :
    List (Bytes × Data) → Option (List (Bytes × Data) × List Bytes)
  | [] => some ([], [])
  | (key, value) :: rest => do
      let first ← copyData resolve value
      let others ← copyEntries resolve rest
      return ((key, first.1) :: others.1, first.2 ++ others.2)

end

/-- `copy` of `with:`, which may be missing. -/
def copyWith (resolve : Expr → Found) :
    Option (List (Bytes × Data)) → Option (Option (List (Bytes × Data)) × List Bytes)
  | none => some (none, [])
  | some entries => (copyEntries resolve entries).map fun copied => (some copied.1, copied.2)

/-- `copy` of `become:`. -/
def copyBecome (resolve : Expr → Found) : Become → Become
  | .user name => .user (substituted resolve name)
  | other => other

/-- `copy` of `run:` or `uses:`. -/
def copyKind (resolve : Expr → Found) : StepKind → StepKind
  | .run script => .run (substituted resolve script)
  | .uses plugin => .uses (substituted resolve plugin)

/-- The strings of a step outside `env:` and `with:`. -/
def Step.strings (step : Step) : List Bytes :=
  step.id.toList ++ step.name.toList ++
    (match step.kind with
      | .run script => [script]
      | .uses plugin => [plugin]) ++
    (match step.become with
      | some (.user name) => [name]
      | _ => []) ++
    step.secretOutputs

/-- A step with its templates evaluated.  `target` is `__qwe.target`, `masked`
what joined the redaction set on the way. -/
structure Resolved where
  id : Option Bytes
  name : Option Bytes
  kind : StepKind
  with_ : Option (List (Bytes × Data))
  become : Option Become
  secretOutputs : List Bytes
  env : Table Bytes Bytes
  target : Option Bytes
  masked : List Bytes

def Resolved.run (resolved : Resolved) : Option Bytes :=
  match resolved.kind with
  | .run script => some script
  | .uses _ => none

def Resolved.uses (resolved : Resolved) : Option Bytes :=
  match resolved.kind with
  | .run _ => none
  | .uses plugin => some plugin

/-- A step runs on the job's target unless it says `on: local`. -/
def isRemote (job : Job) (step : Step) : Bool := job.target != localTarget && !step.onLocal

/-- `resolve`, unless it raises. -/
def resolve (workflow : Workflow) (inventory : Inventory) (reveal : Bytes → Bytes) (job : Job)
    (step : Step) (outputs : Outputs) (outputPath : Option Bytes) (token : Bytes) :
    Option Resolved :=
  let envResolver := resolveExpr workflow inventory reveal job outputs
  let all := resolveAll workflow inventory reveal job step outputs
  let final := finalEnv workflow inventory reveal job step outputs
  let remote := isRemote job step
  let final :=
    match outputPath with
    | some path =>
        if step.run.isSome && !remote then final.insert (bytes "QWE_OUTPUT") path else final
    | none => final
  (copyWith all step.with_).map fun copied =>
    { id := step.id.map (substituted all)
      name := step.name.map (substituted all)
      kind := copyKind all step.kind
      with_ := copied.1
      become := step.become.map (copyBecome all)
      secretOutputs := step.secretOutputs.map (substituted all)
      env := if remote then final.insert (bytes "QWE_STEP") token else final
      target := if remote then some job.target else none
      masked :=
        (declaredEnv workflow job step).pairs.flatMap
            (fun entry => (substitute envResolver entry.2).masked) ++
          step.strings.flatMap (fun s => (substitute all s).masked) ++ copied.2 }

section Returned

variable {workflow : Workflow} {inventory : Inventory} {reveal : Bytes → Bytes} {job : Job}
  {step : Step} {outputs : Outputs} {outputPath : Option Bytes} {token : Bytes}
  {resolved : Resolved}
  (returned : resolve workflow inventory reveal job step outputs outputPath token = some resolved)

include returned

theorem resolve_id :
    resolved.id = step.id.map (substituted (resolveAll workflow inventory reveal job step outputs)) := by
  obtain ⟨copied, -, rfl⟩ := Option.map_eq_some_iff.mp returned
  rfl

theorem resolve_kind :
    resolved.kind = copyKind (resolveAll workflow inventory reveal job step outputs) step.kind := by
  obtain ⟨copied, -, rfl⟩ := Option.map_eq_some_iff.mp returned
  rfl

theorem resolve_become :
    resolved.become
      = step.become.map (copyBecome (resolveAll workflow inventory reveal job step outputs)) := by
  obtain ⟨copied, -, rfl⟩ := Option.map_eq_some_iff.mp returned
  rfl

theorem resolve_secretOutputs :
    resolved.secretOutputs
      = step.secretOutputs.map
          (substituted (resolveAll workflow inventory reveal job step outputs)) := by
  obtain ⟨copied, -, rfl⟩ := Option.map_eq_some_iff.mp returned
  rfl

theorem resolve_target :
    resolved.target = if isRemote job step then some job.target else none := by
  obtain ⟨copied, -, rfl⟩ := Option.map_eq_some_iff.mp returned
  rfl

theorem resolve_copied :
    ∃ copied, copyWith (resolveAll workflow inventory reveal job step outputs) step.with_
        = some copied ∧
      resolved.with_ = copied.1 ∧
      resolved.masked
        = (declaredEnv workflow job step).pairs.flatMap (fun entry =>
              (substitute (resolveExpr workflow inventory reveal job outputs) entry.2).masked) ++
            step.strings.flatMap (fun s =>
              (substitute (resolveAll workflow inventory reveal job step outputs) s).masked) ++
            copied.2 := by
  obtain ⟨copied, copies, rfl⟩ := Option.map_eq_some_iff.mp returned
  exact ⟨copied, copies, rfl, rfl⟩

theorem resolve_run :
    resolved.run
      = step.run.map (substituted (resolveAll workflow inventory reveal job step outputs)) := by
  rw [Resolved.run, resolve_kind returned, Step.run]
  cases step.kind with
  | run script => rfl
  | uses plugin => rfl

theorem resolve_uses :
    resolved.uses
      = step.uses.map (substituted (resolveAll workflow inventory reveal job step outputs)) := by
  rw [Resolved.uses, resolve_kind returned, Step.uses]
  cases step.kind with
  | run script => rfl
  | uses plugin => rfl

end Returned

/-! ## Outputs -/

/-- An output is secret if the step lists it in `secret-outputs:` or its plugin
declares it secret. -/
def isSecretOutput (plugins : Plugins) (step : Resolved) (key : Bytes) : Bool :=
  step.secretOutputs.contains key ||
    (step.uses.bind plugins.lookup).any fun declared => declared.lookup key == some true

/-- What `store` does: the outputs of the job, what joins the redaction set, and
the outputs that `result.json` shows. -/
structure Stored where
  outputs : Outputs
  masked : List Bytes
  shown : Option (List (Bytes × Scalar))

def Data.scalar? : Data → Option Scalar
  | .scalar value => some value
  | _ => none

/-- The reported outputs that count: strings, numbers and booleans. -/
def keptOutputs (reported : Table Bytes Data) : Table Bytes Scalar :=
  Table.putSome (fun _ value => value.scalar?) ∅ reported

/-- `store` -/
def store (plugins : Plugins) (outputs : Outputs) (step : Resolved) (reported : Table Bytes Data) :
    Stored :=
  let copyOf := keptOutputs reported
  if copyOf.entries.isEmpty then { outputs := outputs, masked := [], shown := none }
  else
    let secret := copyOf.pairs.filter fun entry => isSecretOutput plugins step entry.1
    let shown := sorted (copyOf.keys.filter fun key => !isSecretOutput plugins step key)
    { outputs :=
        match step.id with
        | some id => outputs.insert id copyOf
        | none => outputs
      masked := secret.map fun entry => envString entry.2
      shown :=
        if shown = [] then none
        else some (shown.filterMap fun key => (copyOf.lookup key).map (key, ·)) }

/-! ## A job's steps -/

/-- What is fixed for every run on this host: where outputs go, the tokens of the
steps and the control sockets of the targets. -/
structure Session where
  outputPath : Bytes → Nat → Option Bytes
  token : Bytes → Nat → Bytes
  sock : Bytes → Bytes

/-- What a run brings: the plaintext of every envelope, and the outputs that each
step of each job reports. -/
structure Run where
  reveal : Bytes → Bytes
  reported : Bytes → Nat → Table Bytes Data

section Steps

variable (project : Project) (session : Session) (run : Run) (jobId : Bytes) (job : Job)

/-- The table that reaches `store`.  A `run:` step on a remote target is not told
where to write its outputs. -/
def received (i : Nat) (step : Step) : Table Bytes Data :=
  if step.run.isSome && isRemote job step then ∅ else run.reported jobId i

/-- Step `i` of the job once the outputs of the steps before it are known. -/
def resolvedWith (outputs : Outputs) (i : Nat) (step : Step) : Option Resolved :=
  resolve project.workflow project.inventory run.reveal job step outputs
    (session.outputPath jobId i) (session.token jobId i)

/-- The outputs of the job's steps before step `i`.  Where `resolve` raises the step does
not start and the job ends, so there is no later step. -/
def outputsBefore : Nat → Option Outputs
  | 0 => some ∅
  | i + 1 =>
      match job.steps[i]? with
      | none => outputsBefore i
      | some step => do
          let outputs ← outputsBefore i
          let resolved ← resolvedWith project session run jobId job outputs i step
          return (store project.plugins outputs resolved (received run jobId job i step)).outputs

/-- Step `i` of the job as the child runs it, if it starts. -/
def resolvedStep (i : Nat) (step : Step) : Option Resolved :=
  (outputsBefore project session run jobId job i).bind fun outputs =>
    resolvedWith project session run jobId job outputs i step

end Steps

end Qwe.Template
