import Qwe.Template.Argv
import Qwe.Template.Outputs
import Qwe.Template.Strings

/-!
# Secrets and command lines

Two runs that differ only in secrets, and when the argv of every `run:` step is
the same in both.  Validation looks for `${{ secrets.NAME }}` in the `run:` text
itself; an env value that reads a secret, and a secret output, reach the text
all the same.  A command line shows the text up to its first NUL.
-/

set_option autoImplicit false

namespace Qwe.Template

open Qwe.CutTexts (shown)
open Qwe.Holes
open Qwe.Lua (cString)
open Qwe.Redact (Bytes)

/-! ## The pieces of a `run:` text -/

/-- A byte that stands for itself, or an expression that is replaced by its value. -/
inductive Piece where
  | byte (b : UInt8)
  | expr (parsed : Expr)
deriving DecidableEq, Repr

def segmentPieces : Segment UInt8 → List Piece
  | .text b => [.byte b]
  | .hole inner =>
      match parseExpr (trim inner) with
      | .ok parsed => [.expr parsed]
      | .error _ => []

def ownPieces (s : Bytes) : List Piece := (segments marks s).flatMap segmentPieces

/-- The pieces of a text, with those of an env value where the text reads it. -/
def pieces (workflow : Workflow) (job : Job) (step : Step) (text : Bytes) : List Piece :=
  (ownPieces text).flatMap fun
    | .expr (.env name) => (((declaredEnv workflow job step).lookup name).map ownPieces).getD []
    | piece => [piece]

/-- The text of a piece; no env value reads another. -/
def pieceText (workflow : Workflow) (inventory : Inventory) (reveal : Bytes → Bytes) (job : Job)
    (outputs : Outputs) : Piece → Bytes
  | .byte b => [b]
  | .expr parsed => (resolveExpr workflow inventory reveal job outputs parsed).value.getD []

section Pieces

variable {workflow : Workflow} {inventory : Inventory} {job : Job} {step : Step} {text : Bytes}

theorem substituted_ownPieces (resolver : Expr → Found) (s : Bytes) :
    substituted resolver s = (ownPieces s).flatMap fun
      | .byte b => [b]
      | .expr parsed => (resolver parsed).value.getD [] := by
  rw [substituted, fill, ownPieces, List.flatMap_assoc]
  apply List.flatMap_congr
  intro segment _
  cases segment with
  | text b => rfl
  | hole inner =>
      simp only [valueOf, segmentPieces]
      cases parseExpr (trim inner) with
      | error message => rfl
      | ok parsed => simp

/-- What `resolve` makes of a text is the text of its pieces. -/
theorem substituted_pieces (reveal : Bytes → Bytes) (outputs : Outputs) :
    substituted (resolveAll workflow inventory reveal job step outputs) text
      = (pieces workflow job step text).flatMap
          (pieceText workflow inventory reveal job outputs) := by
  rw [substituted_ownPieces, pieces, List.flatMap_assoc]
  apply List.flatMap_congr
  intro piece _
  cases piece with
  | byte b => simp [pieceText]
  | expr parsed =>
      cases parsed with
      | env name =>
          simp only [resolveAll, lookup_finalEnv]
          cases (declaredEnv workflow job step).lookup name with
          | none => rfl
          | some value =>
              simp only [Option.map_some, Option.getD_some, substituted_ownPieces]
              apply List.flatMap_congr
              intro inner _
              cases inner <;> rfl
      | vars name => simp [pieceText, resolveAll]
      | secrets name => simp [pieceText, resolveAll]
      | steps id key => simp [pieceText, resolveAll]

theorem mem_ownPieces {parsed : Expr} : .expr parsed ∈ ownPieces text ↔ parsed ∈ exprsOf text := by
  rw [mem_exprsOf, ownPieces, List.mem_flatMap]
  constructor
  · rintro ⟨segment, listed, here⟩
    cases segment with
    | text b => simp [segmentPieces] at here
    | hole inner =>
        refine ⟨inner, List.mem_filterMap.mpr ⟨_, listed, rfl⟩, ?_⟩
        simp only [segmentPieces] at here
        cases parses : parseExpr (trim inner) with
        | error message => simp [parses] at here
        | ok other =>
            simp only [parses, List.mem_singleton, Piece.expr.injEq] at here
            rw [here]
  · rintro ⟨inner, present, parses⟩
    obtain ⟨segment, listed, isHole⟩ := List.mem_filterMap.mp present
    refine ⟨segment, listed, ?_⟩
    cases segment with
    | text b => cases isHole
    | hole other =>
        obtain rfl := Option.some.inj isHole
        simp [segmentPieces, parses]

/-- An expression among the pieces stands in the text or in an env value that it reads. -/
theorem mem_pieces {parsed : Expr} (present : .expr parsed ∈ pieces workflow job step text) :
    parsed ∈ exprsOf text ∨
      ∃ name value, (declaredEnv workflow job step).lookup name = some value ∧
        parsed ∈ exprsOf value := by
  obtain ⟨outer, read, inner⟩ := List.mem_flatMap.mp present
  cases outer with
  | byte b => simp at inner
  | expr other =>
      cases other with
      | env name =>
          cases declared : (declaredEnv workflow job step).lookup name with
          | none => simp [declared] at inner
          | some value =>
              simp only [declared, Option.map_some, Option.getD_some] at inner
              exact .inr ⟨name, value, declared, mem_ownPieces.mp inner⟩
      | vars name =>
          obtain rfl := Piece.expr.inj (List.mem_singleton.mp inner)
          exact .inl (mem_ownPieces.mp read)
      | secrets name =>
          obtain rfl := Piece.expr.inj (List.mem_singleton.mp inner)
          exact .inl (mem_ownPieces.mp read)
      | steps id key =>
          obtain rfl := Piece.expr.inj (List.mem_singleton.mp inner)
          exact .inl (mem_ownPieces.mp read)

end Pieces

/-! ## Two runs -/

section Runs

variable (project : Project) (session : Session)

/-- Whether `store` takes output `key` of step `i` as secret. -/
def declaresSecret (run : Run) (jobId : Bytes) (job : Job) (i : Nat) (step : Step) (key : Bytes) :
    Bool :=
  (resolvedStep project session run jobId job i step).any fun resolved =>
    isSecretOutput project.plugins resolved key

/-- The runs differ only in plaintexts: those of the envelopes, and the outputs
that are declared secret in both. -/
def SameButSecrets (left right : Run) : Prop :=
  ∀ jobId job, project.workflow.jobs.lookup jobId = some job →
    ∀ i step, job.steps[i]? = some step → ∀ key,
      ¬ (declaresSecret project session left jobId job i step key = true ∧
        declaresSecret project session right jobId job i step key = true) →
      (left.reported jobId i).lookup key = (right.reported jobId i).lookup key

/-- Every `run:` step has one argv in any two runs that differ only in secrets. -/
def HidesSecrets : Prop :=
  ∀ left right, SameButSecrets project session left right →
    ∀ jobId job, project.workflow.jobs.lookup jobId = some job →
      ∀ i, runArgv project session left jobId job i = runArgv project session right jobId job i

/-- Whether an expression of step `i` reads a secret: one of `secrets:`, or an output of an
earlier step that can report outputs and declares it secret.  (The entries of
`secret-outputs:` are templates too.) -/
def ReadsSecret (run : Run) (jobId : Bytes) (job : Job) (i : Nat) : Expr → Prop
  | .secrets _ => True
  | .steps id key => ∃ m earlier, m < i ∧ job.steps[m]? = some earlier ∧ earlier.id = some id ∧
      (earlier.run.isSome && isRemote job earlier) = false ∧
      declaresSecret project session run jobId job m earlier key = true
  | _ => False

/-- No secret stands in a `run:` text before a NUL, in any run that comes to it. -/
def SecretsStayOut : Prop :=
  ∀ run jobId job, project.workflow.jobs.lookup jobId = some job →
    ∀ i step text outputs, job.steps[i]? = some step → step.run = some text →
      outputsBefore project session run jobId job i = some outputs →
      step.holdsEnvelope = false →
      ∀ parsed, .expr parsed ∈ shown 0
          (pieceText project.workflow project.inventory run.reveal job outputs)
          (pieces project.workflow job step text) →
        ¬ ReadsSecret project session run jobId job i parsed

variable {project session}

/-! ## Which steps start -/

section Starts

variable {run : Run} {jobId : Bytes} {job : Job} {i : Nat} {step : Step} {outputs : Outputs}

theorem isSome_resolvedWith (run : Run) (outputs : Outputs) :
    (resolvedWith project session run jobId job outputs i step).isSome = !step.holdsEnvelope :=
  (Option.isSome_map ..).trans (isSome_copyWith _ step)

theorem isSome_outputsBefore_succ (run : Run) (i : Nat) :
    (outputsBefore project session run jobId job (i + 1)).isSome
      = ((outputsBefore project session run jobId job i).isSome &&
          (job.steps[i]?).all fun step => !step.holdsEnvelope) := by
  rw [outputsBefore]
  cases job.steps[i]? with
  | none => rw [Option.all_none, Bool.and_true]
  | some step =>
      cases outputsBefore project session run jobId job i with
      | none => rfl
      | some outputs =>
          have own : (resolvedWith project session run jobId job outputs i step).isSome
              = !step.holdsEnvelope := isSome_resolvedWith run outputs
          rw [Option.all_some, Option.isSome_some, Bool.true_and, ← own]
          simp only [Option.bind_eq_bind, Option.bind_some]
          cases resolvedWith project session run jobId job outputs i step with
          | none => rfl
          | some resolved => rfl

/-- Whether a step is reached is the same in every run. -/
theorem isSome_outputsBefore (left right : Run) : ∀ i,
    (outputsBefore project session left jobId job i).isSome
      = (outputsBefore project session right jobId job i).isSome
  | 0 => rfl
  | i + 1 => by
      rw [isSome_outputsBefore_succ, isSome_outputsBefore_succ, isSome_outputsBefore left right i]

theorem reached_in (other : Run)
    (reached : outputsBefore project session run jobId job i = some outputs) :
    ∃ outputs', outputsBefore project session other jobId job i = some outputs' := by
  apply Option.isSome_iff_exists.mp
  rw [isSome_outputsBefore other run, reached]
  rfl

/-- Where the declarations hold no template, they say what is secret. -/
theorem declaresSecret_iff_of_plain {key : Bytes}
    (reached : outputsBefore project session run jobId job i = some outputs)
    (starts : step.holdsEnvelope = false) (plainOutputs : ∀ entry ∈ step.secretOutputs, 36 ∉ entry)
    (plainUses : ∀ plugin, step.uses = some plugin → 36 ∉ plugin) :
    declaresSecret project session run jobId job i step key = true ↔
      key ∈ step.secretOutputs ∨
        ∃ declared, step.uses.bind project.plugins.lookup = some declared ∧
          declared.lookup key = some true := by
  have prepared : (resolvedWith project session run jobId job outputs i step).isSome := by
    rw [isSome_resolvedWith, starts]
    rfl
  obtain ⟨resolved, returned⟩ := Option.isSome_iff_exists.mp prepared
  have listed : resolved.secretOutputs = step.secretOutputs := by
    rw [resolve_secretOutputs returned]
    exact List.map_congr_left (fun entry present => substituted_plain (plainOutputs entry present))
      |>.trans (List.map_id _)
  have uses : resolved.uses = step.uses := by
    rw [resolve_uses returned]
    cases used : step.uses with
    | none => rfl
    | some plugin => rw [Option.map_some, substituted_plain (plainUses plugin used)]
  rw [declaresSecret, resolvedStep, reached, Option.bind_some, returned, Option.any_some,
    isSecretOutput, listed, uses, Bool.or_eq_true, List.contains_iff_mem]
  cases step.uses.bind project.plugins.lookup with
  | none => simp
  | some declared => simp

end Starts

/-! ## The argv of an accepted step -/

section Job

variable {jobId : Bytes} {job : Job}
  (accepted : JobAccepted project.workflow project.inventory project.plugins jobId job)
  {i : Nat} {step : Step} (at_i : job.steps[i]? = some step)

include accepted at_i in
theorem copyBecome_accepted (resolver : Expr → Found) :
    step.become.map (copyBecome resolver) = step.become := by
  cases value : step.become with
  | none => rfl
  | some become =>
      cases become with
      | flag b => rfl
      | uid n => rfl
      | user name =>
          rw [Option.map_some, copyBecome, substituted_plain (accepted.user_plain at_i value)]

include accepted at_i in
theorem clean_become : Clean step.become := by
  intro word listed
  cases value : step.become with
  | none =>
      rw [value] at listed
      cases listed
  | some become =>
      rw [value] at listed
      cases become with
      | flag b =>
          cases b with
          | false => cases listed
          | true =>
              simp only [prefixOf, List.mem_cons, List.not_mem_nil, or_false] at listed
              rcases listed with rfl | rfl <;> decide
      | uid n =>
          simp only [prefixOf, List.mem_cons, List.not_mem_nil, or_false] at listed
          rcases listed with rfl | rfl | rfl | rfl
          · decide
          · decide
          · decide
          · rw [List.mem_append, not_or]
            exact ⟨by decide, zero_notMem_decimal _⟩
      | user name =>
          simp only [prefixOf, List.mem_cons, List.not_mem_nil, or_false] at listed
          rcases listed with rfl | rfl | rfl | rfl
          · decide
          · decide
          · decide
          · exact accepted.user_clean at_i value

/-- The script of a `run:` step once the outputs before it are known. -/
def scriptIn (project : Project) (run : Run) (job : Job) (step : Step) (outputs : Outputs)
    (text : Bytes) : Bytes :=
  (pieces project.workflow job step text).flatMap
    (pieceText project.workflow project.inventory run.reveal job outputs)

include accepted at_i

theorem runArgv_run (run : Run) {text : Bytes} (has : step.run = some text)
    {outputs : Outputs} (reached : outputsBefore project session run jobId job i = some outputs)
    (starts : step.holdsEnvelope = false) :
    runArgv project session run jobId job i
      = (scriptArgv project.inventory session (if isRemote job step then some job.target else none)
          step.become (scriptIn project run job step outputs text)).map
            fun words => words.map cString := by
  have prepared : (resolvedWith project session run jobId job outputs i step).isSome := by
    rw [isSome_resolvedWith, starts]
    rfl
  obtain ⟨resolved, returned⟩ := Option.isSome_iff_exists.mp prepared
  rw [runArgv, at_i, Option.bind_some, resolvedStep, reached, Option.bind_some, returned,
    Option.bind_some, resolve_run returned, has, Option.map_some, Option.bind_some,
    resolve_target returned, resolve_become returned, copyBecome_accepted accepted at_i,
    substituted_pieces, scriptIn]

omit accepted in
theorem runArgv_uses (run : Run) (has : step.run = none) :
    runArgv project session run jobId job i = none := by
  rw [runArgv, at_i, Option.bind_some, Option.bind_eq_none_iff]
  intro resolved prepared
  obtain ⟨outputs, -, returned⟩ := Option.bind_eq_some_iff.mp prepared
  rw [resolve_run returned, has, Option.map_none, Option.bind_none]

omit accepted in
/-- A step that holds an envelope does not start, nor does one behind it. -/
theorem runArgv_unprepared (run : Run)
    (held : outputsBefore project session run jobId job i = none ∨ step.holdsEnvelope = true) :
    runArgv project session run jobId job i = none := by
  have unprepared : resolvedStep project session run jobId job i step = none := by
    rw [resolvedStep, Option.bind_eq_none_iff]
    intro outputs reached
    rcases held with unreached | envelope
    · rw [unreached] at reached
      cases reached
    · rw [← Option.not_isSome_iff_eq_none, isSome_resolvedWith, envelope]
      exact Bool.false_ne_true
  rw [runArgv, at_i, Option.bind_some, unprepared, Option.bind_none]

/-- The argv shows the script up to its first NUL. -/
theorem scriptIn_of_runArgv {left right : Run} {text : Bytes} (has : step.run = some text)
    {outputs outputs' : Outputs}
    (reached : outputsBefore project session left jobId job i = some outputs)
    (reached' : outputsBefore project session right jobId job i = some outputs')
    (starts : step.holdsEnvelope = false)
    (same : runArgv project session left jobId job i = runArgv project session right jobId job i) :
    cString (scriptIn project left job step outputs text)
      = cString (scriptIn project right job step outputs' text) := by
  rw [runArgv_run accepted at_i left has reached starts,
    runArgv_run accepted at_i right has reached' starts] at same
  apply scriptArgv_shows (clean_become accepted at_i) _ same
  by_cases remote : isRemote job step = true
  · rw [if_pos remote, scriptArgv, Option.isSome_map]
    exact accepted.target_known remote
  · rw [if_neg remote]
    rfl

end Job

end Runs

end Qwe.Template
