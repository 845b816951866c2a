import Qwe.Template.Document

/-!
# Validation

`check` of `src/kernel/lua/template.lua` and `structure` of
`src/kernel/lua/validate.lua`, which runs when the schema has passed.  The
schema itself is in the types of the documents; the text of an envelope is for
`qwe.secrets.check`.
-/

set_option autoImplicit false

namespace Qwe.Template

open Qwe.Redact (Bytes)

/-- Which position an error is reported at. -/
inductive Place where
  | key
  | value
deriving DecidableEq, Repr

structure Problem where
  pointer : Bytes
  kind : Place
  message : Bytes
deriving DecidableEq, Repr

/-- `esc`: one token of a JSON pointer. -/
def esc (token : Bytes) : Bytes :=
  token.flatMap fun b => if b = 126 then [126, 48] else if b = 47 then [126, 49] else [b]

def quoted (name : Bytes) : Bytes := bytes "\"" ++ name ++ bytes "\""

/-- `table.concat(names, ", ")` -/
def commaList (names : List Bytes) : Bytes := (bytes ", ").intercalate names

/-- The list of names at the end of a message. -/
def listing (label : Bytes) (none : Bytes) (names : List Bytes) : Bytes :=
  if names = [] then none else bytes " (" ++ label ++ bytes ": " ++ commaList (sorted names) ++ bytes ")"

def holeText (expr : Bytes) : Bytes := bytes "$\x7b\x7b " ++ expr ++ bytes " \x7d\x7d"

/-! ## Templates -/

/-- The steps before this one that have an id: the outputs that the step's
plugin declares, or `none` where any output may be read. -/
abbrev Earlier := Table Bytes (Option (Table Bytes Bool))

/-- What `scan` is told besides the value and where it stands. -/
structure Scope where
  earlier : Earlier
  inEnv : Bool
  target : Option Bytes
  isRun : Bool

section Check

variable (workflow : Workflow) (inventory : Inventory) (plugins : Plugins)

/-- What `scan` has against one parsed expression. -/
def parsedProblem (scope : Scope) (expr : Bytes) : Expr → Option Bytes
  | .env _ =>
      if scope.inEnv then some (bytes "an env value cannot read env: " ++ holeText expr)
      else none
  | .secrets name =>
      if scope.isRun then
        some (bytes "a secret cannot be substituted into run: text, where it would be in the " ++
          bytes "command line of every process on the host: map it with env: (env: \x7b NAME: " ++
          holeText expr ++ bytes " \x7d) and read $NAME")
      else
        let visible := secretScope workflow inventory scope.target
        if visible.lookup name = none then
          some (bytes "no secret " ++ quoted name ++ bytes " is visible here" ++
            listing (bytes "secrets") (bytes " (none are defined)") visible.keys)
        else none
  | .vars name =>
      match scope.target with
      | none =>
          some (bytes "vars belong to a job's target: use them in a job or step, or map them in " ++
            bytes "a job's env: (" ++ holeText expr ++ bytes ")")
      | some target =>
          match inventory.vars target with
          | none => none
          | some vars =>
              if vars.lookup name = none then
                some (bytes "target " ++ quoted target ++ bytes " has no var " ++ quoted name ++
                  listing (bytes "vars") (bytes " (it has no vars)") vars.keys)
              else none
  | .steps step key =>
      match scope.earlier.lookup step with
      | none =>
          some (bytes "no step " ++ quoted step ++ bytes " before this one in the job: " ++
            holeText expr ++
            bytes " (outputs are visible only within the same job, to later steps)")
      | some none => none
      | some (some declared) =>
          if declared.lookup key = none then
            some (bytes "step " ++ quoted step ++ bytes " declares no output " ++ quoted key)
          else none

/-- What `scan` has against one expression. -/
def exprProblem (scope : Scope) (expr : Bytes) : Option Bytes :=
  match parseExpr expr with
  | .error message => some message
  | .ok parsed => parsedProblem workflow inventory scope expr parsed

/-- `scan` of a string. -/
def scanText (scope : Scope) (pointer value : Bytes) : List Problem :=
  (eachExpr value).filterMap fun expr =>
    (exprProblem workflow inventory scope expr).map fun message =>
      { pointer := pointer, kind := .value, message := message }

mutual

/-- `scan`: the strings anywhere in a value.  `is_run` is not handed down. -/
def scan (scope : Scope) (pointer : Bytes) : Data → List Problem
  | .scalar (.string s) => scanText workflow inventory scope pointer s
  | .scalar _ => []
  | .null => []
  | .secret envelope =>
      scanText workflow inventory { scope with isRun := false } (pointer ++ bytes "/value") envelope
  | .array items => scanItems { scope with isRun := false } pointer 0 items
  | .map entries => scanEntries { scope with isRun := false } pointer entries

def scanItems (scope : Scope) (pointer : Bytes) (i : Nat) : List Data → List Problem
  | [] => []
  | item :: rest =>
      scan scope (pointer ++ bytes "/" ++ decimalNat i) item ++ scanItems scope pointer (i + 1) rest

def scanEntries (scope : Scope) (pointer : Bytes) : List (Bytes × Data) → List Problem
  | [] => []
  | (key, value) :: rest =>
      scan scope (pointer ++ bytes "/" ++ esc key) value ++ scanEntries scope pointer rest

end

/-- `check_env`: one entry. -/
def envProblems (scope : Scope) (pointer : Bytes) (entry : Bytes × Scalar) : List Problem :=
  let (name, value) := entry
  let here := pointer ++ bytes "/" ++ esc name
  if !isEnvName name then
    [{ pointer := here, kind := .key,
       message := bytes "env name " ++ quoted name ++ bytes " must match [A-Za-z_][A-Za-z0-9_]*" }]
  else if name = bytes "QWE_OUTPUT" then
    [{ pointer := here, kind := .key, message := bytes "QWE_OUTPUT is set by qwe for run: steps" }]
  else if name = bytes "QWE_STEP" then
    [{ pointer := here, kind := .key,
       message := bytes "QWE_STEP is set by qwe for steps on a remote target" }]
  else
    match value with
    | .string s => scanText workflow inventory scope here s
    | _ => []

/-- `check_env` -/
def checkEnv (scope : Scope) (pointer : Bytes) (env : Table Bytes Scalar) : List Problem :=
  env.pairs.flatMap (envProblems workflow inventory scope pointer)

/-- `earlier` once a step is behind. -/
def noteStep (earlier : Earlier) (step : Step) : Earlier :=
  match step.id with
  | none => earlier
  | some id => earlier.insert id (step.uses.bind plugins.lookup)

/-- What `check` has against one step. -/
def checkStep (target base : Bytes) (earlier : Earlier) (i : Nat) (step : Step) : List Problem :=
  let here := base ++ bytes "/steps/" ++ decimalNat i
  let scope : Scope := { earlier := earlier, inEnv := false, target := some target, isRun := false }
  checkEnv workflow inventory { scope with inEnv := true } (here ++ bytes "/env") step.env ++
    (match step.run with
      | some text => scanText workflow inventory { scope with isRun := true } (here ++ bytes "/run") text
      | none => []) ++
    (match step.with_ with
      | some entries => scan workflow inventory scope (here ++ bytes "/with") (.map entries)
      | none => [])

/-- The loop of `check` over a job's steps. -/
def checkSteps (target base : Bytes) : Nat → Earlier → List Step → List Problem
  | _, _, [] => []
  | i, earlier, step :: rest =>
      checkStep workflow inventory target base earlier i step ++
        checkSteps target base (i + 1) (noteStep plugins earlier step) rest

/-- The jobs in the order of their ids. -/
def jobsInOrder : List (Bytes × Job) :=
  (sorted workflow.jobs.keys).filterMap fun id => (workflow.jobs.lookup id).map (id, ·)

def jobPointer (id : Bytes) : Bytes := bytes "/jobs/" ++ esc id

/-- `check` -/
def check : List Problem :=
  checkEnv workflow inventory { earlier := ∅, inEnv := true, target := none, isRun := false }
    (bytes "/env") workflow.env ++
  (jobsInOrder workflow).flatMap fun (id, job) =>
    checkEnv workflow inventory
      { earlier := ∅, inEnv := true, target := some job.target, isRun := false }
      (jobPointer id ++ bytes "/env") job.env ++
    checkSteps workflow inventory plugins job.target (jobPointer id) 0 ∅ job.steps

/-! ## Structure -/

/-- `id_problem` -/
def idProblem (id : Bytes) : Option Bytes :=
  if 64 < id.length then some (bytes "is longer than 64 characters")
  else if !isName id then some (bytes "must match [A-Za-z_][A-Za-z0-9_-]*")
  else none

/-- The step ids of a job; `seen` maps an id to the first step that has it. -/
def stepIdProblems (base : Bytes) : Nat → Table Bytes Nat → List Step → List Problem
  | _, _, [] => []
  | i, seen, step :: rest =>
      match step.id with
      | none => stepIdProblems base (i + 1) seen rest
      | some id =>
          let here := base ++ bytes "/steps/" ++ decimalNat i ++ bytes "/id"
          let bad := (idProblem id).toList.map fun why =>
            { pointer := here, kind := Place.value,
              message := bytes "step id " ++ quoted id ++ bytes " " ++ why }
          match seen.lookup id with
          | some first =>
              bad ++ { pointer := here, kind := .value,
                       message := bytes "duplicate step id " ++ quoted id ++
                         bytes " (first used by step " ++ decimalNat first ++ bytes ")" } ::
                stepIdProblems base (i + 1) seen rest
          | none => bad ++ stepIdProblems base (i + 1) (seen.insert id i) rest

def jobProblems (entry : Bytes × Job) : List Problem :=
  let (id, job) := entry
  (if inventory.hasTarget job.target then []
    else [{ pointer := jobPointer id ++ bytes "/target", kind := .value,
            message := bytes "unknown target " ++ quoted job.target ++ bytes " (declared: " ++
              commaList inventory.targetNames ++ bytes ")" }]) ++
  (idProblem id).toList.map (fun why =>
    { pointer := jobPointer id, kind := .key,
      message := bytes "job id " ++ quoted id ++ bytes " " ++ why }) ++
  stepIdProblems (jobPointer id) 0 ∅ job.steps

def becomeMessage : Option Become → Option Bytes
  | some (.user name) =>
      if isUserName name then none
      else some (bytes "become: " ++ quoted name ++
        bytes " is not a user name (use a name like runner, an integer uid, or true for root)")
  | some (.uid n) => if n < 0 then some (bytes "become: a uid cannot be negative") else none
  | _ => none

def becomeProblems (entry : Bytes × Job) : List Problem :=
  (entry.2.steps.mapIdx fun i step =>
    (becomeMessage step.become).toList.map fun message =>
      { pointer := jobPointer entry.1 ++ bytes "/steps/" ++ decimalNat i ++ bytes "/become",
        kind := Place.value, message := message }).flatten

/-- `secret_map_errors`: the names of a map of envelopes. -/
def secretMapProblems (map : Table Bytes Bytes) (pointer : Bytes) : List Problem :=
  (map.keys.filter fun name => !isName name).map fun name =>
    { pointer := pointer ++ bytes "/" ++ esc name, kind := .key,
      message := bytes "secret name " ++ quoted name ++ bytes " must match [A-Za-z_][A-Za-z0-9_-]*" }

/-- A secret of the workflow that the inventory defines too. -/
def sharedSecretProblems : List Problem :=
  (workflow.secrets.keys.filter fun name => (inventory.secrets.lookup name).isSome).map fun name =>
    { pointer := bytes "/secrets/" ++ esc name, kind := .key,
      message := bytes "secret " ++ quoted name ++
        bytes " is defined in the workflow and in the inventory" }

/-- Where a secret of a target is defined as well. -/
def alsoDefined (name : Bytes) : Option Bytes :=
  if (workflow.secrets.lookup name).isSome then some (bytes "the workflow")
  else if (inventory.secrets.lookup name).isSome then some (bytes "the inventory")
  else none

def targetSecretProblems (entry : Bytes × Job) : List Problem :=
  let (id, job) := entry
  if job.target = localTarget then []
  else
    match inventory.targets.lookup job.target with
    | none => []
    | some t =>
        t.secrets.keys.filterMap fun name =>
          (alsoDefined workflow inventory name).map fun place =>
            { pointer := jobPointer id ++ bytes "/target", kind := .value,
              message := bytes "secret " ++ quoted name ++ bytes " is defined in both " ++ place ++
                bytes " and target " ++ quoted job.target ++ bytes ", which this job uses" }

/-- `structure`: the checks the schema cannot express. -/
def structureProblems : List Problem :=
  (jobsInOrder workflow).flatMap (jobProblems inventory) ++
  (jobsInOrder workflow).flatMap becomeProblems ++
  secretMapProblems workflow.secrets (bytes "/secrets") ++
  sharedSecretProblems workflow inventory ++
  (jobsInOrder workflow).flatMap (targetSecretProblems workflow inventory) ++
  check workflow inventory plugins

end Check

/-! ## The inventory -/

/-- `validate` of `inventory.lua`, past its schema. -/
def inventoryProblems (inventory : Inventory) : List Problem :=
  secretMapProblems inventory.secrets (bytes "/secrets") ++
  (if (inventory.targets.lookup localTarget).isSome then
    [{ pointer := bytes "/targets/local", kind := .key,
       message := bytes "\"local\" is built in and cannot be defined in the inventory" }]
    else []) ++
  (inventory.targets.pairs.flatMap fun (name, t) =>
    secretMapProblems t.secrets (bytes "/targets/" ++ esc name ++ bytes "/secrets")) ++
  inventory.targets.pairs.flatMap fun (name, t) =>
    (t.vars.keys.filter fun var => !isName var).map fun var =>
      { pointer := bytes "/targets/" ++ esc name ++ bytes "/vars/" ++ esc var, kind := .key,
        message := bytes "var name " ++ quoted var ++ bytes " must match [A-Za-z_][A-Za-z0-9_-]*" }

/-- What a run starts from: a workflow, the inventory and the loaded plugins. -/
structure Project where
  workflow : Workflow
  inventory : Inventory
  plugins : Plugins

/-- Validation has nothing against the inventory and nothing against the workflow. -/
def Project.Accepted (project : Project) : Prop :=
  inventoryProblems project.inventory = [] ∧
    structureProblems project.workflow project.inventory project.plugins = []

instance (project : Project) : Decidable project.Accepted :=
  inferInstanceAs (Decidable (_ ∧ _))

end Qwe.Template
