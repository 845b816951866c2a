import Qwe.Lib.HolePattern
import Qwe.Template.Sound

/-!
# One pass

`substitute` replaces the matches of a pattern by calling back for each.  The text that it makes
of a string is the string with its holes filled, and so nothing that comes from a value is
evaluated again, in an env value or behind one.
-/

set_option autoImplicit false

namespace Qwe.Template

open Qwe.Holes
open Qwe.Redact (Bytes)
open Qwe.Patterns (Item gsub)

/-! ## The loop of `substitute` -/

/-- `%${{(.-)}}` -/
def templateItems : List Item :=
  [.one (.byte 36), .one (.byte 123), .one (.byte 123), .start, .lazy .any, .stop,
    .one (.byte 125), .one (.byte 125)]

/-- `inner:gsub("^%s+", ""):gsub("%s+$", "")` -/
def trimmed (inner : Bytes) : Bytes :=
  gsub ⟨false, [.plus (.kind .space false), .finish]⟩ (fun _ => [])
    (gsub ⟨true, [.plus (.kind .space false)]⟩ (fun _ => []) inner)

/-- The callback of `substitute`, without what it notes about secrets. -/
def replacement (resolve : Expr → Found) (inner : Bytes) : Bytes :=
  match parseExpr (trimmed inner) with
  | .error _ => []
  | .ok parsed => (resolve parsed).value.getD []

/-- The `out` of `substitute`. -/
def gsubbed (resolve : Expr → Found) (s : Bytes) : Bytes :=
  gsub ⟨false, templateItems⟩ (fun found => replacement resolve (found.text 0)) s

theorem trimmed_eq (inner : Bytes) : trimmed inner = trim inner := by
  have space : (Patterns.Class.kind .space false).has = isSpace := by
    funext b
    simp [Patterns.Class.has, Patterns.Kind.has, isSpace]
  rw [trimmed, Patterns.gsub_trailing, Patterns.gsub_leading, space, trim]

theorem gsubbed_eq (resolve : Expr → Found) (s : Bytes) :
    gsubbed resolve s = substituted resolve s := by
  have same : replacement resolve = valueOf resolve := by
    funext inner
    rw [replacement, trimmed_eq]
    rfl
  rw [gsubbed, same, show templateItems = holeItems marks from rfl,
    gsub_holes (List.cons_ne_nil _ _), substituted]

/-! ## Values -/

/-- A string with the value of its expression in the place of each `${{ }}`; what is not an
expression is empty. -/
def onePass (value : Expr → Bytes) (s : Bytes) : Bytes :=
  fill (fun inner =>
    match parseExpr (trim inner) with
    | .error _ => []
    | .ok parsed => value parsed) (segments marks s)

section Values
variable (workflow : Workflow) (inventory : Inventory) (reveal : Bytes → Bytes) (job : Job)
  (step : Step) (outputs : Outputs)

/-- The value of an expression in an env value: `vars`, `secrets` and outputs are data. -/
def direct : Expr → Bytes
  | .env _ => []
  | .vars name => ((((inventory.vars job.target).getD ∅).lookup name).map envString).getD []
  | .secrets name =>
      (((secretScope workflow inventory (some job.target)).lookup name).map reveal).getD []
  | .steps id key => ((outputAt outputs id key).map envString).getD []

/-- The env values of the step, each made in one pass. -/
def envData (name : Bytes) : Option Bytes :=
  ((declaredEnv workflow job step).lookup name).map
    (onePass (direct workflow inventory reveal job outputs))

/-- The value of an expression in `run:` and `with:`; an env value is data there. -/
def data : Expr → Bytes
  | .env name => (envData workflow inventory reveal job step outputs name).getD []
  | parsed => direct workflow inventory reveal job outputs parsed

theorem substituted_direct :
    substituted (resolveExpr workflow inventory reveal job outputs)
      = onePass (direct workflow inventory reveal job outputs) := by
  funext s
  rw [substituted, onePass]
  apply fill_congr
  intro inner _
  rw [valueOf]
  cases parseExpr (trim inner) with
  | error message => rfl
  | ok parsed => cases parsed <;> rfl

theorem substituted_data :
    substituted (resolveAll workflow inventory reveal job step outputs)
      = onePass (data workflow inventory reveal job step outputs) := by
  funext s
  rw [substituted, onePass]
  apply fill_congr
  intro inner _
  rw [valueOf]
  cases parseExpr (trim inner) with
  | error message => rfl
  | ok parsed =>
      cases parsed with
      | env name =>
          change ((finalEnv workflow inventory reveal job step outputs).lookup name).getD [] = _
          rw [lookup_finalEnv, substituted_direct]
          rfl
      | vars name => rfl
      | secrets name => rfl
      | steps id key => rfl

theorem lookup_finalEnv_data (name : Bytes) :
    (finalEnv workflow inventory reveal job step outputs).lookup name
      = envData workflow inventory reveal job step outputs name := by
  rw [lookup_finalEnv, substituted_direct, envData]

/-- What `resolve` makes of env values, `run:` and the strings of `with:` is each string with its
holes filled once. -/
theorem resolve_single_pass (outputPath : Option Bytes) (token : Bytes) :
    (∀ s, fill (fun inner => marks.first :: marks.more ++ inner ++ marks.closing)
      (segments marks s) = s) ∧
    (∀ (resolver : Expr → Found) s,
      gsubbed resolver s = onePass (fun parsed => (resolver parsed).value.getD []) s) ∧
    (∀ name, (finalEnv workflow inventory reveal job step outputs).lookup name
      = envData workflow inventory reveal job step outputs name) ∧
    ∀ resolved,
      resolve workflow inventory reveal job step outputs outputPath token = some resolved →
      (∀ name, name ≠ bytes "QWE_OUTPUT" → name ≠ bytes "QWE_STEP" →
        resolved.env.lookup name = envData workflow inventory reveal job step outputs name) ∧
      resolved.run = step.run.map (onePass (data workflow inventory reveal job step outputs)) ∧
      (resolved.with_.map Data.entryStrings).getD []
        = ((step.with_.map Data.entryStrings).getD []).map
            (onePass (data workflow inventory reveal job step outputs)) := by
  have env := lookup_finalEnv_data workflow inventory reveal job step outputs
  refine ⟨fill_segments, fun resolver s => ?_, env, fun resolved returned => ⟨?_, ?_, ?_⟩⟩
  · rw [gsubbed_eq, substituted]
    rfl
  · intro name notOutput notStep
    rw [resolve_env_lookup returned notOutput notStep, env]
  · rw [resolve_run returned, substituted_data]
  · rw [resolve_with returned, substituted_data]

end Values

/-- An output that looks like a template, read by an env value and through it by `run:`. -/
def echoStep : Step where
  kind := .run (bytes "echo $\x7b\x7b env.X \x7d\x7d")
  env := Table.ofPairs [(bytes "X", .string (bytes "<$\x7b\x7b steps.a.outputs.k \x7d\x7d>"))]

def echoJob : Job where
  target := localTarget
  env := ∅
  steps := [echoStep]

def echoWorkflow : Workflow where
  secrets := Table.ofPairs [(bytes "S", bytes "sealed")]
  jobs := Table.ofPairs [(bytes "j", echoJob)]

def echoOutputs : Outputs :=
  Table.ofPairs [(bytes "a",
    Table.ofPairs [(bytes "k", .string (bytes "$\x7b\x7b secrets.S \x7d\x7d %1"))])]

theorem resolve_single_pass_echo :
    ∃ resolved, resolve echoWorkflow {} (fun _ => bytes "s3cret") echoJob echoStep echoOutputs none
        [] = some resolved ∧
      resolved.env.lookup (bytes "X") = some (bytes "<$\x7b\x7b secrets.S \x7d\x7d %1>") ∧
      resolved.run = some (bytes "echo <$\x7b\x7b secrets.S \x7d\x7d %1>") := by
  have starts : (resolve echoWorkflow {} (fun _ => bytes "s3cret") echoJob echoStep echoOutputs none
      []).isSome := rfl
  obtain ⟨resolved, returned⟩ := Option.isSome_iff_exists.mp starts
  obtain ⟨-, -, -, each⟩ := resolve_single_pass echoWorkflow {} (fun _ => bytes "s3cret")
    echoJob echoStep echoOutputs none []
  obtain ⟨env, run, -⟩ := each resolved returned
  refine ⟨resolved, returned, ?_⟩
  rw [env _ (by decide) (by decide), run]
  decide

end Qwe.Template
