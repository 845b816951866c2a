import Qwe.Template.Sound
import Qwe.Template.Stored

/-!
# What is masked before a step starts

`resolve` adds every plaintext that it reveals to the run's redaction set, and
every string that it builds from a secret; `store` adds the secret outputs.
Taint crosses two passes: an env value built from a secret taints the `run:` and
`with:` strings that read it.
-/

set_option autoImplicit false
set_option maxRecDepth 4000

namespace Qwe.Template

open Qwe.Redact (Bytes redactAdd mem_foldl_redactAdd)

/-! ## Texts built from a secret -/

/-- A text that reads a secret, or an env value built from one. -/
inductive BuiltFromSecret (workflow : Workflow) (job : Job) (step : Step) : Bytes → Prop where
  | direct {text name : Bytes} (read : .secrets name ∈ exprsOf text) :
      BuiltFromSecret workflow job step text
  | through {text name value : Bytes} (read : .env name ∈ exprsOf text)
      (declared : (declaredEnv workflow job step).lookup name = some value)
      (built : BuiltFromSecret workflow job step value) : BuiltFromSecret workflow job step text

/-- The texts that `resolve` evaluates: the env values, the strings of `with:`,
and those of the other keys. -/
def evaluated (workflow : Workflow) (job : Job) (step : Step) : List Bytes :=
  textsAt workflow job step .env ++ step.strings ++ (step.with_.map Data.entryStrings).getD []

section Substitute

variable {resolver : Expr → Found} {s : Bytes}

theorem mem_masked_of_tainted {parsed : Expr} (read : parsed ∈ exprsOf s)
    (tainted : parsed.isSecrets = true ∨ (resolver parsed).secret = true) :
    substituted resolver s ∈ (substitute resolver s).masked := by
  have any : ((exprsOf s).any fun parsed => parsed.isSecrets || (resolver parsed).secret) = true :=
    List.any_eq_true.mpr ⟨parsed, read, by rwa [Bool.or_eq_true]⟩
  simp only [substitute, any, if_true]
  exact List.mem_append_right _ (List.mem_singleton_self _)

theorem mem_masked_of_revealed {parsed : Expr} (read : parsed ∈ exprsOf s) {plain : Bytes}
    (revealed : plain ∈ (resolver parsed).revealed) : plain ∈ (substitute resolver s).masked :=
  List.mem_append_left _ (List.mem_flatMap.mpr ⟨parsed, read, revealed⟩)

end Substitute

section Resolve

variable {workflow : Workflow} {inventory : Inventory} {reveal : Bytes → Bytes} {job : Job}
  {step : Step} {outputs : Outputs} {outputPath : Option Bytes} {token : Bytes}

theorem mem_strings_of_run {text : Bytes} (has : step.run = some text) : text ∈ step.strings := by
  unfold Step.run at has
  rw [Step.strings]
  cases kind : step.kind with
  | run script =>
      rw [kind] at has
      cases has
      simp
  | uses plugin =>
      rw [kind] at has
      cases has

section Returned

variable {resolved : Resolved}
  (returned : resolve workflow inventory reveal job step outputs outputPath token = some resolved)

include returned

/-- What an env value masks joins the set. -/
theorem mem_resolve_masked_env {text secret : Bytes}
    (placed : text ∈ textsAt workflow job step .env)
    (masks : secret
      ∈ (substitute (resolverAt workflow inventory reveal job step outputs .env) text).masked) :
    secret ∈ resolved.masked := by
  obtain ⟨entry, present, rfl⟩ := List.mem_map.mp placed
  obtain ⟨copied, -, -, masked⟩ := resolve_copied returned
  rw [masked]
  apply List.mem_append_left
  apply List.mem_append_left
  exact List.mem_flatMap.mpr ⟨entry, present, masks⟩

/-- What another string of the step masks joins the set. -/
theorem mem_resolve_masked_body {text secret : Bytes}
    (placed : text ∈ step.strings ++ (step.with_.map Data.entryStrings).getD [])
    (masks : secret
      ∈ (substitute (resolverAt workflow inventory reveal job step outputs .body) text).masked) :
    secret ∈ resolved.masked := by
  obtain ⟨copied, copies, -, masked⟩ := resolve_copied returned
  rw [masked]
  rcases List.mem_append.mp placed with own | inWith
  · apply List.mem_append_left
    apply List.mem_append_right
    exact List.mem_flatMap.mpr ⟨text, own, masks⟩
  · apply List.mem_append_right
    rw [copyWith_masked _ copies]
    exact List.mem_flatMap.mpr ⟨text, inWith, masks⟩

/-- Every plaintext that is revealed joins the set. -/
theorem revealed_masked {text name envelope : Bytes} (placed : text ∈ evaluated workflow job step)
    (read : .secrets name ∈ exprsOf text)
    (visible : (secretScope workflow inventory (some job.target)).lookup name = some envelope) :
    reveal envelope ∈ resolved.masked := by
  have revealed : ∀ position, reveal envelope ∈
      (resolverAt workflow inventory reveal job step outputs position (.secrets name)).revealed := by
    intro position
    rw [resolverAt_direct fun _ => Expr.noConfusion]
    simp [resolveExpr, visible]
  rw [evaluated, List.append_assoc, List.mem_append] at placed
  rcases placed with inEnv | inBody
  · exact mem_resolve_masked_env returned inEnv (mem_masked_of_revealed read (revealed .env))
  · exact mem_resolve_masked_body returned inBody (mem_masked_of_revealed read (revealed .body))

end Returned

end Resolve

section Accepted

variable {workflow : Workflow} {inventory : Inventory} {plugins : Plugins} {reveal : Bytes → Bytes}
  {jobId : Bytes} {job : Job} {i : Nat} {step : Step} {outputs : Outputs}
  {outputPath : Option Bytes} {token : Bytes}
  (accepted : JobAccepted workflow inventory plugins jobId job) (at_i : job.steps[i]? = some step)

include accepted at_i

/-- An env value built from a secret reads it itself. -/
theorem env_reads_secret {name value : Bytes}
    (declared : (declaredEnv workflow job step).lookup name = some value)
    (built : BuiltFromSecret workflow job step value) :
    ∃ secret, .secrets secret ∈ exprsOf value := by
  cases built with
  | direct read => exact ⟨_, read⟩
  | through read inner built =>
      exfalso
      have placed : value ∈ textsAt workflow job step .env :=
        List.mem_map_of_mem (f := Prod.snd) (Table.lookup_eq_some_iff.mp declared)
      obtain ⟨expr, present, parses⟩ := mem_eachExpr_of_mem_exprsOf read
      obtain ⟨parsed, same, defined⟩ := accepted.reads_defined at_i placed present
      rw [parses] at same
      cases same
      have inBody : Position.env = Position.body := defined
      cases inBody

/-- A text of `run:` or `with:` that is built from a secret is tainted. -/
theorem body_tainted {text : Bytes} (built : BuiltFromSecret workflow job step text) :
    ∃ parsed ∈ exprsOf text, parsed.isSecrets = true ∨
      (resolverAt workflow inventory reveal job step outputs .body parsed).secret = true := by
  cases built with
  | direct read => exact ⟨_, read, .inl rfl⟩
  | through read declared built =>
      refine ⟨_, read, .inr ?_⟩
      obtain ⟨secret, inner⟩ := env_reads_secret accepted at_i declared built
      simp only [resolverAt, resolveAll, fromSecret, declared]
      exact List.any_eq_true.mpr ⟨_, inner, rfl⟩

section Returned

variable {resolved : Resolved}
  (returned : resolve workflow inventory reveal job step outputs outputPath token = some resolved)

include returned

theorem env_masked {name value : Bytes}
    (declared : (declaredEnv workflow job step).lookup name = some value)
    (built : BuiltFromSecret workflow job step value) :
    substituted (resolverAt workflow inventory reveal job step outputs .env) value
      ∈ resolved.masked := by
  obtain ⟨secret, read⟩ := env_reads_secret accepted at_i declared built
  have placed := (finalEnv_texts workflow inventory reveal job step outputs declared).1
  exact mem_resolve_masked_env returned placed (mem_masked_of_tainted read (.inl rfl))

theorem body_masked {text : Bytes}
    (placed : text ∈ step.strings ++ (step.with_.map Data.entryStrings).getD [])
    (built : BuiltFromSecret workflow job step text) :
    substituted (resolverAt workflow inventory reveal job step outputs .body) text
      ∈ resolved.masked := by
  obtain ⟨parsed, read, tainted⟩ := body_tainted accepted at_i built
  exact mem_resolve_masked_body returned placed (mem_masked_of_tainted read tainted)

end Returned

end Accepted

/-! ## Before a step starts, and when it has reported -/

/-- What the redaction set `masked` holds when `resolve` has returned `resolved`. -/
structure SecretsMasked (workflow : Workflow) (inventory : Inventory) (reveal : Bytes → Bytes)
    (job : Job) (step : Step) (resolved : Resolved) (masked : List Bytes) : Prop where
  revealed : ∀ {text name envelope : Bytes}, text ∈ evaluated workflow job step →
    .secrets name ∈ exprsOf text →
    (secretScope workflow inventory (some job.target)).lookup name = some envelope →
    reveal envelope ≠ [] → reveal envelope ∈ masked
  env : ∀ {name value out : Bytes}, (declaredEnv workflow job step).lookup name = some value →
    BuiltFromSecret workflow job step value → resolved.env.lookup name = some out → out ≠ [] →
    out ∈ masked
  run : ∀ {text out : Bytes}, step.run = some text → BuiltFromSecret workflow job step text →
    resolved.run = some out → out ≠ [] → out ∈ masked
  with_ : ∀ {entries : List (Bytes × Data)} {n : Nat} {text out : Bytes},
    step.with_ = some entries → (Data.entryStrings entries)[n]? = some text →
    BuiltFromSecret workflow job step text →
    ((resolved.with_.map Data.entryStrings).getD [])[n]? = some out → out ≠ [] → out ∈ masked

/-- What the redaction set `masked` and the JSON hold when `store` has returned `stored`. -/
structure OutputsKept (plugins : Plugins) (step : Resolved) (reported : Table Bytes Data)
    (stored : Stored) (masked : List Bytes) : Prop where
  masked : ∀ {key : Bytes} {value : Scalar}, reported.lookup key = some (.scalar value) →
    DeclaredSecret plugins step key → envString value ≠ [] → envString value ∈ masked
  hidden : ∀ {key : Bytes} {value : Scalar} {json : Json}, stored.json = some json →
    (key, value) ∈ json.members → ¬ DeclaredSecret plugins step key
  shown : ∀ {key : Bytes} {value : Scalar}, reported.lookup key = some (.scalar value) →
    ¬ DeclaredSecret plugins step key → ¬ OnlyNumberN plugins step reported →
    ∃ json, stored.json = some json ∧ (key, value) ∈ json.members
  readable : ∀ {id key : Bytes} {value : Scalar}, step.id = some id →
    reported.lookup key = some (.scalar value) → outputAt stored.outputs id key = some value

theorem resolve_masks {workflow : Workflow} {inventory : Inventory} {plugins : Plugins}
    {jobId : Bytes} {job : Job} (accepted : JobAccepted workflow inventory plugins jobId job)
    {i : Nat} {step : Step} (at_i : job.steps[i]? = some step) {reveal : Bytes → Bytes}
    {outputs : Outputs} {outputPath : Option Bytes} {token : Bytes} {resolved : Resolved}
    (returned : resolve workflow inventory reveal job step outputs outputPath token = some resolved)
    (set : List Bytes) :
    SecretsMasked workflow inventory reveal job step resolved
      (resolved.masked.foldl redactAdd set) := by
  have joins : ∀ {secret}, secret ∈ resolved.masked → secret ≠ [] →
      secret ∈ resolved.masked.foldl redactAdd set :=
    fun member nonempty => (mem_foldl_redactAdd _ _ _).mpr (.inr ⟨member, nonempty⟩)
  constructor
  · intro text name envelope placed read visible
    exact joins (revealed_masked returned placed read visible)
  · intro name value out declared built found
    rw [accepted.resolve_env at_i returned declared] at found
    obtain rfl := Option.some.inj found
    exact joins (env_masked accepted at_i returned declared built)
  · intro text out has built found
    rw [resolve_run returned, has] at found
    obtain rfl := Option.some.inj found
    exact joins (body_masked accepted at_i returned
      (List.mem_append_left _ (mem_strings_of_run has)) built)
  · intro entries n text out has at_n built found
    rw [resolve_with returned, has, Option.map_some, Option.getD_some, List.getElem?_map, at_n]
      at found
    obtain rfl := Option.some.inj found
    have placed : text ∈ step.strings ++ (step.with_.map Data.entryStrings).getD [] := by
      rw [has]
      exact List.mem_append_right _ (List.mem_of_getElem? at_n)
    exact joins (body_masked accepted at_i returned placed built)

theorem store_keeps (plugins : Plugins) (outputs : Outputs) (step : Resolved)
    (reported : Table Bytes Data) (set : List Bytes) :
    OutputsKept plugins step reported (store plugins outputs step reported)
      ((store plugins outputs step reported).masked.foldl redactAdd set) := by
  constructor
  · intro key value counts secret nonempty
    exact (mem_foldl_redactAdd _ _ _).mpr (.inr ⟨store_masked counts secret, nonempty⟩)
  · intro key value json returned present
    exact json_members_open returned present
  · intro key value counts open_ more
    exact ⟨_, json_object counts open_ more, mem_openOutputs.mpr ⟨counts, open_⟩⟩
  · intro id key value own counts
    exact outputAt_store counts own

/-- Before a step of an accepted workflow starts, all that is secret in it is in
the redaction set; when it has reported, its secret outputs are, the JSON shows
only the others, and the later steps of the job read them all. -/
theorem secrets_masked {project : Project}
    (accepted : structureProblems project.workflow project.inventory project.plugins = [])
    {jobId : Bytes} {job : Job} (found : project.workflow.jobs.lookup jobId = some job)
    {i : Nat} {step : Step} (at_i : job.steps[i]? = some step) :
    (∀ reveal outputs outputPath token set resolved,
      resolve project.workflow project.inventory reveal job step outputs outputPath token
        = some resolved →
      let masked := resolved.masked.foldl redactAdd set
      SecretsMasked project.workflow project.inventory reveal job step resolved masked ∧
        ∀ reported,
          let stored := store project.plugins outputs resolved reported
          OutputsKept project.plugins resolved reported stored
            (stored.masked.foldl redactAdd masked)) ∧
    ∀ session run later outputs id key value, i < later → step.id = some id →
      outputsBefore project session run jobId job later = some outputs →
      (received run jobId job i step).lookup key = some (.scalar value) →
      (resolveExpr project.workflow project.inventory run.reveal job outputs
        (.steps id key)).value = some (envString value) := by
  have job_accepted := jobAccepted accepted found
  constructor
  · intro reveal outputs outputPath token set resolved returned
    exact ⟨resolve_masks job_accepted at_i returned set,
      fun reported => store_keeps project.plugins outputs _ reported _⟩
  · intro session run later outputs id key value less has reached counts
    rw [resolveExpr, outputAt_reported session run job_accepted at_i has key reached less, counts]
    rfl

/-! ## A step that is given a secret and makes one -/

def mintStep : Step where
  id := some (bytes "mint")
  kind := .uses (bytes "github.token")
  with_ := some [(bytes "auth", .scalar (.string (bytes "bearer $\x7b\x7b env.TOKEN \x7d\x7d")))]
  secretOutputs := [bytes "token"]

def mintJob : Job where
  target := localTarget
  env := Table.ofPairs [(bytes "TOKEN", .string (bytes "$\x7b\x7b secrets.S \x7d\x7d"))]
  steps := [mintStep]

def mintProject : Project where
  workflow :=
    { secrets := Table.ofPairs [(bytes "S", bytes "sealed")]
      jobs := Table.ofPairs [(bytes "j", mintJob)] }
  inventory := {}
  plugins := ∅

/-- What `resolve` returns where the secret is `s3cret`. -/
def mintReturned : Option Resolved :=
  resolve mintProject.workflow mintProject.inventory (fun _ => bytes "s3cret") mintJob mintStep ∅
    none []

theorem secrets_masked_mint :
    ∃ resolved, mintReturned = some resolved ∧
      bytes "bearer s3cret" ∈ resolved.masked.foldl redactAdd [] := by
  have accepted : structureProblems mintProject.workflow mintProject.inventory
      mintProject.plugins = [] := by decide
  have found : mintProject.workflow.jobs.lookup (bytes "j") = some mintJob := rfl
  have at_0 : mintJob.steps[0]? = some mintStep := rfl
  have starts : mintReturned.isSome := rfl
  obtain ⟨resolved, returned⟩ := Option.isSome_iff_exists.mp starts
  have masks := ((secrets_masked accepted found at_0).1 (fun _ => bytes "s3cret") ∅ none [] []
    resolved returned).1
  have value : BuiltFromSecret mintProject.workflow mintJob mintStep
      (bytes "$\x7b\x7b secrets.S \x7d\x7d") := .direct (by decide : Expr.secrets (bytes "S") ∈ _)
  have text : BuiltFromSecret mintProject.workflow mintJob mintStep
      (bytes "bearer $\x7b\x7b env.TOKEN \x7d\x7d") :=
    .through (by decide : Expr.env (bytes "TOKEN") ∈ _) (by decide) value
  have at_first : (Data.entryStrings
      [(bytes "auth", .scalar (.string (bytes "bearer $\x7b\x7b env.TOKEN \x7d\x7d")))])[0]?
        = some (bytes "bearer $\x7b\x7b env.TOKEN \x7d\x7d") := rfl
  refine ⟨resolved, returned, masks.with_ rfl at_first text ?_ (by decide)⟩
  rw [resolve_with returned]
  decide

/-- An empty output does not join the set, and a number called `n` makes the JSON an array. -/
theorem empty_and_n_left_out :
    structureProblems mintProject.workflow mintProject.inventory mintProject.plugins = [] ∧
    ∃ resolved, mintReturned = some resolved ∧
      (DeclaredSecret mintProject.plugins resolved (bytes "token") ∧
        envString (.string []) ∉ (store mintProject.plugins ∅ resolved
          (Table.ofPairs [(bytes "token", .scalar (.string []))])).masked.foldl redactAdd
            (resolved.masked.foldl redactAdd [])) ∧
      ¬ DeclaredSecret mintProject.plugins resolved (bytes "n") ∧
        (store mintProject.plugins ∅ resolved
          (Table.ofPairs [(bytes "n", .scalar (.number (.integral 3)))])).json
            = some (.array (.integral 3)) := by
  refine ⟨by decide, mintReturned.get rfl, (Option.some_get _).symm, ⟨.inl (by decide), by decide⟩,
    ?_, by decide⟩
  rw [← isSecretOutput_iff]
  decide

end Qwe.Template
