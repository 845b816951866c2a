import Qwe.Kernel.Classify
import Qwe.Kernel.Reasons
import Qwe.Kernel.SentMessage

/-!
# Plugins that report only their own outcome

Of which plugins the parent never hears a reason of the engine, and what is recorded
for their steps.
-/

set_option autoImplicit false

namespace Qwe.Kernel

open Qwe.Cbor Qwe.Lifecycle Qwe.Lua
open Qwe.Redact (Bytes)
open Qwe.Template (bytes)

/-! ## Honest plugins -/

def Encodes (numeral : Number → Bytes) (depth : Nat) (v : Value) : Prop :=
  ∃ item, encodeValue numeral depth v = .ok item

/-- A table that says it failed, for one of the engine's reasons. -/
def ClaimsEngine : Value → Prop
  | .table mt sequence fields _ =>
      classify mt sequence = .map ∧ wordOf (fieldAt fields (bytes "status")) = bytes "failed" ∧
        (wordOf (fieldAt fields (bytes "reason")) = bytes "engine-error" ∨
          wordOf (fieldAt fields (bytes "reason")) = bytes "become-denied")
  | _ => False

/-- The check that finds nothing (more) to change, and what it returns. -/
def Settles (p : Plugin) (values : List Value) : Prop :=
  truthy (nth values 0) = false ∧
    (p.check = .returned values ∨ ∃ first applied, p.check = .returned first ∧
      truthy (nth first 0) = true ∧ p.apply = .returned applied ∧ p.recheck = .returned values)

section Honest
variable (put : Nat → Number → Bytes) (numeral : Number → Bytes)

/-- The value can be sent, and the parent drops it if it claims an outcome of the
engine. -/
structure Modest (v : Value) : Prop where
  encodes : Encodes numeral 0 v
  dropped : ClaimsEngine v → ∀ heads, sendResult numeral v = some heads →
    resultMax < (Tinycbor.tokensBytes put heads).length

/-- Everything the plugin reports can be encoded, and `argv` claims no outcome of
the engine in a message that is read. -/
structure Plugin.Honest (p : Plugin) : Prop where
  argv : ∀ values, p.argv = some (.returned values) → isTable (nth values 1) = true →
    Modest put numeral (nth values 1)
  outputs : p.argv = none → ∀ values, Settles p values → truthy (nth values 1) = true →
    Encodes numeral 1 (nth values 1)

end Honest

/-! ## What can be encoded -/

section Reads
variable {put : Nat → Number → Bytes} {numeral : Number → Bytes}

theorem encodes_luaTable {depth : Nat} {fields : List (String × Value)}
    (shallow : depth < luaMaxDepth) (nodup : (fields.map fun entry => bytes entry.1).Nodup)
    (clean : ∀ entry ∈ fields, 0 ∉ bytes entry.1)
    (each : ∀ entry ∈ fields, Encodes numeral (depth + 1) entry.2) :
    Encodes numeral depth (luaTable fields) := by
  apply map_encodes numeral shallow
  · rw [List.map_map]
    exact nodup
  · intro entry member
    obtain ⟨field, there, rfl⟩ := List.mem_map.mp member
    exact clean field there
  · intro entry member
    obtain ⟨field, there, rfl⟩ := List.mem_map.mp member
    exact each field there

/-- The fields of a table that is encoded are encoded. -/
theorem encodes_of_luaTable {depth : Nat} {fields : List (String × Value)} {v : Value}
    (encodes : Encodes numeral depth (luaTable fields)) (key : String) (clean : 0 ∉ bytes key)
    (found : (fields.map fun entry => (bytes entry.1, entry.2)).lookup (bytes key) = some v) :
    Encodes numeral (depth + 1) v := by
  obtain ⟨item, encodes⟩ := encodes
  obtain ⟨w, converts⟩ := converts_of_encoded numeral _ encodes
  rw [luaTable, encodeValue] at encodes
  split at encodes
  · contradiction
  simp only [classify, List.length_nil, Nat.not_lt_zero, gt_iff_lt, Bool.false_eq_true, or_self,
    if_false] at encodes
  obtain ⟨entries, written, rfl⟩ := Except.map_eq_ok encodes
  rw [convert] at converts
  split at converts
  · contradiction
  obtain ⟨fields', entered, rfl⟩ := Except.map_eq_ok converts
  have all : ∀ entry ∈ fields.map fun entry => (bytes entry.1, entry.2),
      entry.1 ∈ ((fields.map fun entry => (bytes entry.1, entry.2)).map (·.1)).mergeSort keyLe := by
    intro entry member
    rw [List.mem_mergeSort]
    exact List.mem_map_of_mem member
  have sent := field_sent written all entered clean
  rw [found] at sent
  generalize fields'.lookup (bytes key) = other at sent
  cases sent with
  | sent encodes _ => exact ⟨_, encodes⟩

theorem encodes_empty {depth : Nat} (shallow : depth < luaMaxDepth) :
    Encodes numeral depth (luaTable []) :=
  encodes_luaTable shallow (by simp) (by simp) (by simp)

/-- A result can be encoded exactly if its outputs can. -/
theorem encodes_okResult_iff {outputs : Value} (changed : Bool) :
    Encodes numeral 0 (okResult changed outputs) ↔ Encodes numeral 1 outputs := by
  constructor
  · intro encodes
    exact encodes_of_luaTable encodes "outputs" (by decide) rfl
  intro encodes
  apply encodes_luaTable
  · decide
  · simp only [List.map_cons, List.map_nil]
    decide
  · simp only [List.mem_cons, List.not_mem_nil, or_false, forall_eq_or_imp, forall_eq]
    decide
  · simp only [List.mem_cons, List.not_mem_nil, or_false, forall_eq_or_imp, forall_eq]
    exact ⟨⟨_, rfl⟩, ⟨_, rfl⟩, encodes⟩

theorem encodes_failedResult (reason : String) : Encodes numeral 0 (failedResult reason) := by
  apply encodes_luaTable
  · decide
  · simp only [List.map_cons, List.map_nil]
    decide
  · simp only [List.mem_cons, List.not_mem_nil, or_false, forall_eq_or_imp, forall_eq]
    decide
  · simp only [List.mem_cons, List.not_mem_nil, or_false, forall_eq_or_imp, forall_eq]
    exact ⟨⟨_, rfl⟩, ⟨_, rfl⟩, ⟨_, rfl⟩, encodes_empty (by decide)⟩

/-! ## What the parent reads -/

/-- A message is read as what was sent. -/
theorem readMessage_sent {v : Value} {heads : List (Token Number)}
    (sent : sendResult numeral v = some heads) : readMessage heads = sentMessage v := by
  rw [sendResult, luaToCbor] at sent
  cases encodes : encodeValue numeral 0 v with
  | error err =>
      rw [encodes] at sent
      contradiction
  | ok item =>
      rw [encodes] at sent
      cases sent
      obtain ⟨w, converts⟩ := converts_of_encoded numeral v encodes
      rw [readMessage, cborToLua_tokens, converts]
      exact messageOf_sent encodes converts

theorem sendResult_iff {v : Value} :
    Encodes numeral 0 v ↔ ∃ heads, sendResult numeral v = some heads := by
  rw [Encodes, sendResult, luaToCbor]
  cases encodeValue numeral 0 v with
  | error err =>
      constructor
      · rintro ⟨_, same⟩
        cases same
      · rintro ⟨_, same⟩
        cases same
  | ok item => exact ⟨fun _ => ⟨_, rfl⟩, fun _ => ⟨_, rfl⟩⟩

/-- The reasons that only the engine may give. -/
def OfEngine (why : MsgReason) : Prop := why = .engineError ∨ why = .becomeDenied

theorem ofEngine_reasonOf {v : Value} :
    OfEngine (reasonOf v) ↔ wordOf v = bytes "engine-error" ∨ wordOf v = bytes "become-denied" := by
  have apart : bytes "not-converged" ≠ bytes "engine-error" ∧
      bytes "not-converged" ≠ bytes "become-denied" := by decide
  unfold reasonOf
  split_ifs with converged denied engine
  · simp [OfEngine, converged, apart]
  · simp [OfEngine, denied]
  · simp [OfEngine, engine]
  · simp [OfEngine, denied, engine]

theorem statusOf_failed_iff {status reason : Value} {why : MsgReason} :
    statusOf status reason = .failed why ↔
      wordOf status = bytes "failed" ∧ reasonOf reason = why := by
  have apart : bytes "exec" ≠ bytes "failed" ∧ bytes "ok" ≠ bytes "failed" := by decide
  unfold statusOf
  split_ifs with exec ok failed
  · simp [exec, apart]
  · simp [ok, apart]
  · simp [failed]
  · simp [failed]

/-- The parent reads a reason of the engine where the value claims one. -/
theorem claims_iff {v : Value} :
    ClaimsEngine v ↔ ∃ why, (sentMessage v).status = .failed why ∧ OfEngine why := by
  cases v with
  | table mt sequence fields others =>
      rw [ClaimsEngine, ← ofEngine_reasonOf, sentMessage]
      split_ifs with kind
      · have read : (messageOf (.table mt sequence fields others)).status =
            statusOf (fieldAt fields (bytes "status")) (fieldAt fields (bytes "reason")) := rfl
        simp [kind, read, statusOf_failed_iff]
      · simp [kind, StepMsg.missing]
  | _ => simp [ClaimsEngine, sentMessage, StepMsg.missing]

/-- `exec` is sent, and read as such. -/
theorem exec_read (numeral : Number → Bytes) : ∃ heads,
    sendStatus numeral "exec" none = some heads ∧ (readMessage heads).status = .exec := by
  have encodes : Encodes numeral 0 (luaTable [("status", .string (bytes "exec"))]) := by
    apply encodes_luaTable (by decide) (by simp) (by decide)
    simp only [List.mem_singleton, forall_eq]
    exact ⟨_, rfl⟩
  obtain ⟨heads, sent⟩ := sendResult_iff.mp encodes
  exact ⟨heads, sent, by rw [readMessage_sent sent]; decide⟩

/-- `{ status = "failed", reason = reason }` -/
def failure (reason : String) : Value :=
  luaTable [("status", .string (bytes "failed")), ("reason", .string (bytes reason))]

def failureItem (reason : String) : Item Number :=
  .map true [(.text (bytes "reason"), .text (bytes reason)),
    (.text (bytes "status"), .text (bytes "failed"))]

theorem failure_sent (numeral : Number → Bytes) (reason : String) :
    sendResult numeral (failure reason) = some (failureItem reason).tokens := by
  have sorted : [bytes "status", bytes "reason"].mergeSort keyLe =
      [bytes "reason", bytes "status"] := by
    have later : keyLe (bytes "status") (bytes "reason") = false := by decide
    simp [List.mergeSort, later]
  have encodes : encodeValue numeral 0 (failure reason) = .ok (failureItem reason) := by
    rw [failure, luaTable, encodeValue, if_neg (by decide)]
    simp only [classify, List.length_nil, Nat.not_lt_zero, gt_iff_lt, Bool.false_eq_true, or_self,
      if_false, List.map_cons, List.map_nil, sorted]
    rfl
  rw [sendResult, luaToCbor, encodes]
  rfl

/-- What `child_argv` reports of itself is read. -/
theorem failure_short (put : Nat → Number → Bytes) :
    (Tinycbor.tokensBytes put (failureItem "engine-error").tokens).length ≤ resultMax := by
  have few : (Tinycbor.tokensBytes put (failureItem "engine-error").tokens).length = 35 := rfl
  rw [few]
  decide

/-! ## Per message -/

/-- No reason of the engine is read of the message that a result makes the child send. -/
theorem modest_iff {v : Value} :
    Modest put numeral v ↔ ∀ heads why,
      (sendResult numeral v).or (sendStatus numeral "failed" (some "engine-error")) = some heads →
      (Tinycbor.tokensBytes put heads).length ≤ resultMax →
      (readMessage heads).status = .failed why → ¬OfEngine why := by
  constructor
  · rintro ⟨encodes, dropped⟩ heads why sent short said engine
    obtain ⟨written, is⟩ := sendResult_iff.mp encodes
    rw [is, Option.some_or, Option.some.injEq] at sent
    subst sent
    rw [readMessage_sent is] at said
    exact Nat.not_lt.mpr short (dropped (claims_iff.mpr ⟨why, said, engine⟩) _ is)
  · intro never
    cases sent : sendResult numeral v with
    | none =>
        have failed : sendStatus numeral "failed" (some "engine-error") =
            some (failureItem "engine-error").tokens := failure_sent numeral "engine-error"
        have read : (readMessage (failureItem "engine-error").tokens).status
            = .failed .engineError := by
          rw [readMessage_sent (failure_sent numeral "engine-error")]
          decide
        rw [sent, Option.none_or] at never
        exact absurd (Or.inl rfl) (never _ _ failed (failure_short put) read)
    | some heads =>
        refine ⟨sendResult_iff.mpr ⟨heads, sent⟩, ?_⟩
        intro claimed other same
        obtain ⟨why, said, engine⟩ := claims_iff.mp claimed
        rw [← readMessage_sent sent] at said
        rw [sent] at same
        cases same
        by_contra short
        rw [sent, Option.some_or] at never
        exact never _ why rfl (Nat.not_lt.mp short) said engine

theorem modest_failedResult {reason : String} (apart : bytes reason ≠ bytes "engine-error" ∧
    bytes reason ≠ bytes "become-denied") (clean : 0 ∉ bytes reason) :
    Modest put numeral (failedResult reason) := by
  refine ⟨encodes_failedResult reason, ?_⟩
  rintro ⟨_, _, claims⟩
  have word : wordOf (fieldAt ([("status", Value.string (bytes "failed")),
      ("reason", .string (bytes reason)), ("changed", .boolean true), ("outputs", luaTable [])].map
      fun entry => (bytes entry.1, entry.2)) (bytes "reason")) = cString (bytes reason) := rfl
  rw [word, cString_eq_self clean] at claims
  exact (claims.elim apart.1 apart.2).elim

theorem modest_okResult_iff {changed : Bool} {outputs : Value} :
    Modest put numeral (okResult changed outputs) ↔ Encodes numeral 1 outputs := by
  refine ⟨fun modest => (encodes_okResult_iff changed).mp modest.encodes,
    fun encodes => ⟨(encodes_okResult_iff changed).mpr encodes, ?_⟩⟩
  rintro ⟨_, status, _⟩
  have word : wordOf (fieldAt ([("status", Value.string (bytes "ok")),
      ("changed", .boolean changed), ("outputs", outputs)].map
      fun entry => (bytes entry.1, entry.2)) (bytes "status")) = bytes "ok" := rfl
  rw [word] at status
  exact absurd status (by decide)

/-- What `run` of `checkapply.lua` can come to. -/
inductive CheckApplies (p : Plugin) : Option Value → Prop where
  | raised : CheckApplies p none
  | settled (changed : Bool) (values : List Value) (settles : Settles p values) :
      CheckApplies p (some (okResult changed (outputsOf values)))
  | notConverged : CheckApplies p (some (failedResult "not-converged"))

theorem checkApply_cases (p : Plugin) : CheckApplies p (checkApply p) := by
  unfold checkApply
  split
  · exact .raised
  rename_i values checked
  split
  · rename_i fine
    exact .settled _ _ ⟨by simpa using fine, Or.inl checked⟩
  rename_i needs
  split
  · exact .raised
  rename_i applied worked
  split
  · exact .raised
  rename_i later rechecked
  split
  · exact .notConverged
  · rename_i settled
    exact .settled _ _ ⟨by simpa using settled,
      Or.inr ⟨values, applied, checked, by simpa using needs, worked, rechecked⟩⟩

theorem checkApply_of_settles {p : Plugin} {values : List Value} (settles : Settles p values) :
    ∃ changed, checkApply p = some (okResult changed (outputsOf values)) := by
  obtain ⟨settled, checked | ⟨first, applied, checked, needs, worked, rechecked⟩⟩ := settles
  · exact ⟨false, by simp [checkApply, checked, settled]⟩
  · exact ⟨true, by simp [checkApply, checked, needs, worked, rechecked, settled]⟩

/-- A plugin is honest exactly if the result that `run_step` hands on is modest. -/
theorem honest_iff_modest {p : Plugin} :
    p.Honest put numeral ↔ (isTable (runStep p).2 = true → Modest put numeral (runStep p).2) := by
  constructor
  · intro honest table
    unfold runStep at table ⊢
    split
    · exact modest_failedResult (by decide) (by decide)
    · rename_i values returned
      rw [returned] at table
      exact honest.argv values returned table
    · rename_i none_
      have cases_ := checkApply_cases p
      generalize checkApply p = result at cases_
      cases cases_ with
      | raised => exact modest_failedResult (by decide) (by decide)
      | notConverged => exact modest_failedResult (by decide) (by decide)
      | settled changed values settles =>
          apply modest_okResult_iff.mpr
          rw [outputsOf]
          split
          · exact honest.outputs none_ values settles (by assumption)
          · exact encodes_empty (by decide)
  · intro modest
    refine ⟨fun values returned table => ?_, fun none_ values settles given => ?_⟩
    · rw [runStep, returned] at modest
      exact modest table
    · obtain ⟨changed, applied⟩ := checkApply_of_settles settles
      rw [runStep, none_, applied] at modest
      have encodes := modest_okResult_iff.mp (modest rfl)
      rwa [outputsOf, if_pos given] at encodes

/-- Of a plugin the parent hears no reason of the engine exactly if it is honest. -/
theorem honest_iff_hears {p : Plugin} :
    p.Honest put numeral ↔ ∀ msg why, Hears put numeral p msg → msg.status = .failed why →
      why = .notConverged ∨ why = .pluginError := by
  have own : ∀ why, (why = .notConverged ∨ why = .pluginError) ↔ ¬OfEngine why := by
    intro why
    cases why <;> simp [OfEngine]
  simp only [own]
  rw [honest_iff_modest]
  constructor
  · rintro modest msg why (rfl | ⟨heads, sent, short, rfl⟩) said
    · contradiction
    simp only [childMessage] at sent
    split at sent
    · rename_i table
      exact modest_iff.mp (modest table) _ why sent short said
    split at sent
    · obtain ⟨written, is, exec⟩ := exec_read numeral
      rw [is, Option.some_or, Option.some.injEq] at sent
      rw [← sent, exec] at said
      contradiction
    · contradiction
  · intro never table
    refine modest_iff.mpr fun heads why sent short said => ?_
    refine never _ why (Or.inr ⟨heads, ?_, short, rfl⟩) said
    simp only [childMessage, if_pos table]
    exact sent

end Reads

/-! ## What is recorded -/

/-- Every exit of a `uses:` step's leader comes with a message of such a plugin. -/
def PluginRuns (put : Nat → Number → Bytes) (numeral : Number → Bytes) (ok : Plugin → Prop)
    (ctx : RunCtx) (a : Answer) : Prop :=
  ∀ e j job, a.waited = some e → leaderOf ctx.jobs e.pid = some j → ctx.jobs[j]? = some job →
    liveStepIsPlugin job = true → ∃ p, ok p ∧ Hears put numeral p e.msg

def pluginReasons : List Reason := [.exitCode, .notConverged, .pluginError]

theorem sentReason_mem {w : Workflow} {put : Nat → Number → Bytes} {numeral : Number → Bytes}
    {p : Plugin} {job : Job} {e : Exit} (honest : p.Honest put numeral) (hears : Hears put numeral p e.msg)
    (plugin : liveStepIsPlugin job = true) : sentReason w job e ∈ pluginReasons := by
  have own : (leaderExitEvent job e).2.1 ∈ pluginReasons := by
    have outcome := classifies job e
    generalize leaderExitEvent job e = result at outcome
    cases outcome with
    | refused run => simp [plugin] at run
    | disconnected run => simp [plugin] at run
    | ran run => simp [plugin] at run
    | exec => simp [pluginReasons]
    | done => simp [pluginReasons]
    | broken => simp [pluginReasons]
    | failed _ why said =>
        rcases honest_iff_hears.mp honest _ why hears said with rfl | rfl <;>
          simp [pluginReasons, MsgReason.text]
  rw [sentReason]
  split
  · exact own
  · simp [pluginReasons]

/-- In every run with such plugins, what is recorded for a `uses:` step that was
spawned and failed is the plugin's own outcome, its command's, or its timeout. -/
theorem plugin_reports_own_outcome (put : Nat → Number → Bytes) (numeral : Number → Bytes)
    {w : Workflow} {ctx : RunCtx}
    (reachable : (machine w).Reachable (PluginRuns put numeral (Plugin.Honest put numeral)) ctx)
    {job : Job} (member : job ∈ ctx.jobs) {i : Nat} {step : StepSpec}
    (here : job.spec.steps[i]? = some step) (uses : step.uses.isSome = true) {why : Option Reason} (failed : FailedAt job i why)
    (spawned : .spawned i false ∉ job.notes) :
    why = some .exitCode ∨ why = some .notConverged ∨ why = some .pluginError ∨
      (why = some .timeout ∧ timedOut i job.notes = true) := by
  have hears : ∀ (ctx : RunCtx) (a : Answer) (e : Exit) (j : Nat) (job : Job),
      PluginRuns put numeral (Plugin.Honest put numeral) ctx a → a.waited = some e →
      leaderOf ctx.jobs e.pid = some j → ctx.jobs[j]? = some job →
      (leaderExitEvent job e).1 = .leaderExitFail →
      ((job.spec.steps[job.cur]?).bind (·.uses)).isSome = true →
        sentReason w job e ∈ pluginReasons := by
    intro ctx a e j job ok waited leads here _ plugin
    obtain ⟨p, honest, hears⟩ := ok e j job waited leads here plugin
    exact sentReason_mem honest hears plugin
  have cause := failure_has_cause
    (fun spec i why => ((spec.steps[i]?).bind (·.uses)).isSome = true → why ∈ pluginReasons)
    hears reachable job member i why failed
  cases cause with
  | unspawned lost => exact absurd lost spawned
  | timeout late => exact Or.inr (Or.inr (Or.inr ⟨rfl, late⟩))
  | exited reason told =>
      have among := told (by simpa [here] using uses)
      simp only [pluginReasons, List.mem_cons, List.not_mem_nil, or_false] at among
      rcases among with rfl | rfl | rfl <;> simp

/-! ## Two plugins -/

/-- The step's leader exits 1, and this was its message. -/
def Answer.ends (msg : StepMsg) : Answer :=
  { Answer.calm with
    epoll := [tagMake tagNoJob .child none]
    waited := some ⟨7, .exited 1, msg, false⟩ }

/-- The one step of the one job was spawned and failed for this reason. -/
def endsFor (reason : Reason) (ctx : RunCtx) : Bool :=
  (ctx.jobs[0]?).any fun job =>
    ((job.view.result 0).any fun r => r.outcome == some .failed && r.reason == some reason) &&
      ((job.spec.steps[0]?).any (·.uses.isSome) && !job.notes.contains (.spawned 0 false))

theorem endsFor_spec {reason : Reason} {ctx : RunCtx} (ends : endsFor reason ctx = true) :
    ∃ job ∈ ctx.jobs, ∃ step, job.spec.steps[0]? = some step ∧ step.uses.isSome = true ∧
      FailedAt job 0 (some reason) ∧ .spawned 0 false ∉ job.notes := by
  obtain ⟨job, here, passed⟩ := (Option.any_eq_true ..).mp ends
  simp only [Bool.and_eq_true, Bool.not_eq_true'] at passed
  obtain ⟨r, found, told⟩ := (Option.any_eq_true ..).mp passed.1
  obtain ⟨step, there, uses⟩ := (Option.any_eq_true ..).mp passed.2.1
  simp only [Bool.and_eq_true, beq_iff_eq] at told
  refine ⟨job, List.mem_of_getElem? here, step, there, uses, ⟨r, found, told⟩, ?_⟩
  simpa using passed.2.2

/-- A run in which every message of the step is this one. -/
theorem onePlugin_ends {put : Nat → Number → Bytes} {numeral : Number → Bytes}
    (ok : Plugin → Prop) (reason : Reason) {p : Plugin} {msg : StepMsg} (fine : ok p) (hears : Hears put numeral p msg)
    (passes : ((machine { onePlugin with payloadLast := true }).replay
      (fun _ a => a.waited.all fun e => e.msg == msg)
      (List.replicate 14 .calm ++ List.replicate 12 (.ends msg)) (RunCtx.initial onePlugin)).any
      (endsFor reason) = true) :
    ∃ ctx, (machine { onePlugin with payloadLast := true }).Reachable (PluginRuns put numeral ok)
      ctx ∧ endsFor reason ctx = true := by
  apply Machine.exists_run_of_replay _ _ _ _ passes
  intro ctx a checked e j job waited _ _ _
  rw [waited, Option.all_some, beq_iff_eq] at checked
  exact ⟨p, fine, checked ▸ hears⟩

/-- `argv` returns `nil, { status = "failed", reason = reason }`. -/
def claims (reason : String) : Plugin :=
  ⟨some (.returned [.nil, failure reason]), .raised, .raised, .raised⟩

theorem claims_heard (put : Nat → Number → Bytes) (numeral : Number → Bytes) {reason : String}
    (short : (Tinycbor.tokensBytes put (failureItem reason).tokens).length ≤ resultMax) :
    Hears put numeral (claims reason) ⟨.failed (reasonOf (.string (bytes reason))), true⟩ := by
  refine Or.inr ⟨(failureItem reason).tokens, ?_, short, ?_⟩
  · have sent : childMessage numeral (claims reason) = (sendResult numeral (failure reason)).or
        (sendStatus numeral "failed" (some "engine-error")) := rfl
    rw [sent, failure_sent, Option.some_or]
  · rw [readMessage_sent (failure_sent numeral reason)]
    rfl

theorem claims_honest (put : Nat → Number → Bytes) (numeral : Number → Bytes) :
    (claims "not-converged").Honest put numeral := by
  refine honest_iff_modest.mpr fun _ => ⟨sendResult_iff.mpr ⟨_, failure_sent numeral _⟩, ?_⟩
  rintro ⟨_, _, engine | become⟩
  · exact absurd engine (by decide)
  · exact absurd become (by decide)

/-- The bytes of a number, for messages that have none. -/
def zeros (n : Nat) (_ : Number) : Bytes := List.replicate n 0

theorem plugin_reports_own_outcome_notConverged : ∃ (ctx : RunCtx) (job : Job),
    (machine { onePlugin with payloadLast := true }).Reachable
        (PluginRuns zeros (fun _ => []) (Plugin.Honest zeros fun _ => [])) ctx ∧
      job ∈ ctx.jobs ∧ FailedAt job 0 (some .notConverged) ∧
      (some .notConverged = some Reason.exitCode ∨ some .notConverged = some Reason.notConverged ∨
        some .notConverged = some Reason.pluginError ∨
        (some .notConverged = some Reason.timeout ∧ timedOut 0 job.notes = true)) := by
  obtain ⟨ctx, reachable, ends⟩ := onePlugin_ends _ .notConverged (claims_honest zeros fun _ => [])
    (claims_heard zeros (fun _ => []) (by decide)) (by decide +kernel)
  obtain ⟨job, member, step, here, uses, failed, spawned⟩ := endsFor_spec ends
  exact ⟨ctx, job, reachable, member, failed,
    plugin_reports_own_outcome _ _ reachable member here uses failed spawned⟩

/-- A plugin that claims an error of the engine is believed. -/
theorem plugin_claims_engine_error : ¬ ∀ (put : Nat → Number → Bytes)
    (numeral : Number → Bytes) (w : Workflow) (ctx : RunCtx)
    (job : Job) (i : Nat) (step : StepSpec) (why : Option Reason),
    (machine w).Reachable (PluginRuns put numeral fun _ => True) ctx → job ∈ ctx.jobs →
      job.spec.steps[i]? = some step → step.uses.isSome = true → FailedAt job i why →
      .spawned i false ∉ job.notes →
      why = some .exitCode ∨ why = some .notConverged ∨ why = some .pluginError ∨
        (why = some .timeout ∧ timedOut i job.notes = true) := by
  intro claim
  obtain ⟨ctx, reachable, ends⟩ := onePlugin_ends (fun _ => True) .engineError trivial
    (claims_heard zeros (fun _ => []) (failure_short zeros)) (by decide +kernel)
  obtain ⟨job, member, step, here, uses, failed, spawned⟩ := endsFor_spec ends
  have reason := claim _ _ _ ctx job 0 step _ reachable member here uses failed spawned
  simp at reason

end Qwe.Kernel
