import Qwe.Kernel.Report
import Qwe.Kernel.Token
import Qwe.Lib.Json
import Qwe.Lua.Value

/-!
# The result file

`src/kernel/result.c`: `result.json` as it is written, and what a reader of JSON finds in it.
The writes succeed.
-/

set_option autoImplicit false

namespace Qwe.Report

open Qwe.Redact (Bytes)
open Qwe.Template (bytes decimal decimalNat)
open Qwe.Token (Tm two)
open Qwe.Lua (cString)
open Qwe.Json (Reads ReadsMember Spells Utf8)

/-! ## Writing -/

/-- A digit of `%x` -/
def hexLower (d : Nat) : UInt8 := if d < 10 then (48 + d).toUInt8 else (87 + d).toUInt8

/-- `"\\u%04x"`, of a byte -/
def unicodeEscape (c : UInt8) : Bytes :=
  [92, 117, 48, 48, hexLower (c.toNat / 16), hexLower (c.toNat % 16)]

/-- A byte in the loop of `qwe_json_string`. -/
def jsonByte (c : UInt8) : Bytes :=
  if c = 34 then [92, 34]
  else if c = 92 then [92, 92]
  else if c = 10 then [92, 110]
  else if c = 13 then [92, 114]
  else if c = 9 then [92, 116]
  else if c < 0x20 then unicodeEscape c
  else [c]

def qwe_json_string (s : Bytes) : Bytes := [34] ++ (cString s).flatMap jsonByte ++ [34]

def put_opt (s : Option Bytes) : Bytes :=
  match s with
  | some s => qwe_json_string s
  | none => bytes "null"

/-- `strftime` with `%Y-%m-%dT%H:%M:%SZ`: nothing where the text and its NUL exceed `n` bytes. -/
def strftime (n : Nat) (tm : Tm) : Option Bytes :=
  let text := decimal (tm.tm_year + 1900) ++ bytes "-" ++ two (tm.tm_mon + 1) ++ bytes "-" ++
    two tm.tm_mday ++ bytes "T" ++ two tm.tm_hour ++ bytes ":" ++ two tm.tm_min ++ bytes ":" ++
    two tm.tm_sec ++ bytes "Z"
  if text.length < n then some text else none

def put_duration (ms : Int) : Bytes := if ms < 0 then bytes "null" else decimal ms

section Writing
variable (gmtime_r : Int → Option Tm)

def put_time (t : Int) : Bytes :=
  if t = 0 then bytes "null"
  else
    match (gmtime_r t).bind (strftime 32) with
    | none => bytes "\"" ++ decimal t ++ bytes "\""
    | some buf => bytes "\"" ++ buf ++ bytes "\""

/-- The step with index `k`. -/
def stepText (k : Nat) (s : StepResult) : Bytes :=
  bytes (if k ≠ 0 then ",\n        \x7b\n          \"id\": " else "\n        \x7b\n          \"id\": ") ++
    put_opt s.id ++ bytes ",\n          \"outcome\": " ++ qwe_json_string s.outcome ++
    bytes ",\n          \"reason\": " ++ put_opt s.reason ++
    bytes ",\n          \"changed\": " ++ bytes (if s.changed then "true" else "false") ++
    bytes ",\n          \"started\": " ++ put_time gmtime_r s.started ++
    bytes ",\n          \"ended\": " ++ put_time gmtime_r s.ended ++
    bytes ",\n          \"duration_ms\": " ++ put_duration s.duration_ms ++
    (match s.outputs_json with
      | some outputs => bytes ",\n          \"outputs\": " ++ cString outputs
      | none => []) ++
    bytes "\n        \x7d"

/-- The job with index `i`. -/
def jobText (i : Nat) (j : JobResult) : Bytes :=
  bytes (if i ≠ 0 then ",\n    " else "\n    ") ++ qwe_json_string j.id ++
    bytes ": \x7b\n      \"outcome\": " ++ qwe_json_string j.outcome ++
    bytes ",\n      \"reason\": " ++ put_opt j.reason ++
    (match j.detail with
      | some detail => bytes ",\n      \"detail\": " ++ qwe_json_string detail
      | none => []) ++
    bytes ",\n      \"started\": " ++ put_time gmtime_r j.started ++
    bytes ",\n      \"ended\": " ++ put_time gmtime_r j.ended ++
    bytes ",\n      \"duration_ms\": " ++ put_duration j.duration_ms ++
    bytes ",\n      \"dropped_bytes\": " ++ decimalNat j.dropped_bytes ++
    bytes ",\n      \"steps\": [" ++ (j.steps.mapIdx (stepText gmtime_r)).flatten ++
    bytes (if j.steps.length ≠ 0 then "\n      ]\n    \x7d" else "]\n    \x7d")

def qwe_result_write (run_id : Bytes) (jobs : List JobResult) : Bytes :=
  bytes "\x7b\n  \"run_id\": " ++ qwe_json_string run_id ++ bytes ",\n  \"jobs\": \x7b" ++
    (jobs.mapIdx (jobText gmtime_r)).flatten ++
    bytes (if jobs.length ≠ 0 then "\n  \x7d\n\x7d\n" else "\x7d\n\x7d\n")

end Writing

/-! ## The document -/

/-- What a step says of itself in the document. -/
structure StepView where
  id : Option Bytes
  outcome : Bytes
  reason : Option Bytes
  changed : Bool
  started : Option Bytes
  ended : Option Bytes
  duration_ms : Option Nat
  outputs : Option Json.Value

structure JobView where
  id : Bytes
  outcome : Bytes
  reason : Option Bytes
  detail : Option Bytes
  started : Option Bytes
  ended : Option Bytes
  duration_ms : Option Nat
  dropped_bytes : Nat
  steps : List StepView

section Reading

def readStep (v : Json.Value) : Option StepView := do
  let id ← (v.field (bytes "id")).bind (Json.Value.nullable Json.Value.text)
  let outcome ← (v.field (bytes "outcome")).bind Json.Value.text
  let reason ← (v.field (bytes "reason")).bind (Json.Value.nullable Json.Value.text)
  let changed ← (v.field (bytes "changed")).bind Json.Value.boolean
  let started ← (v.field (bytes "started")).bind (Json.Value.nullable Json.Value.text)
  let ended ← (v.field (bytes "ended")).bind (Json.Value.nullable Json.Value.text)
  let duration_ms ← (v.field (bytes "duration_ms")).bind (Json.Value.nullable Json.Value.natural)
  some ⟨id, outcome, reason, changed, started, ended, duration_ms, v.field (bytes "outputs")⟩

def readSteps : Json.Value → Option (List StepView)
  | .array steps => steps.mapM readStep
  | _ => none

/-- A member that may be missing. -/
def readDetail (v : Json.Value) : Option (Option Bytes) :=
  match v.field (bytes "detail") with
  | none => some none
  | some detail => detail.text.map some

def readJob (member : Bytes × Json.Value) : Option JobView := do
  let v := member.2
  let outcome ← (v.field (bytes "outcome")).bind Json.Value.text
  let reason ← (v.field (bytes "reason")).bind (Json.Value.nullable Json.Value.text)
  let detail ← readDetail v
  let started ← (v.field (bytes "started")).bind (Json.Value.nullable Json.Value.text)
  let ended ← (v.field (bytes "ended")).bind (Json.Value.nullable Json.Value.text)
  let duration_ms ← (v.field (bytes "duration_ms")).bind (Json.Value.nullable Json.Value.natural)
  let dropped_bytes ← (v.field (bytes "dropped_bytes")).bind Json.Value.natural
  let steps ← (v.field (bytes "steps")).bind readSteps
  some ⟨member.1, outcome, reason, detail, started, ended, duration_ms, dropped_bytes, steps⟩

/-- The jobs, each under its own name. -/
def readJobs : Json.Value → Option (List JobView)
  | .object jobs => if (jobs.map Prod.fst).Nodup then jobs.mapM readJob else none
  | _ => none

/-- The run that a document tells of. -/
def readRun (v : Json.Value) : Option (Bytes × List JobView) := do
  let run_id ← (v.field (bytes "run_id")).bind Json.Value.text
  let jobs ← (v.field (bytes "jobs")).bind readJobs
  some (run_id, jobs)

end Reading

section Documents
variable (gmtime_r : Int → Option Tm)

/-- The text of a time, where it is not 0. -/
def timeText (t : Int) : Option Bytes :=
  if t = 0 then none else some (((gmtime_r t).bind (strftime 32)).getD (decimal t))

def durationOf (ms : Int) : Option Nat := if ms < 0 then none else some ms.natAbs

def stepView (s : StepResult) : StepView where
  id := s.id
  outcome := s.outcome
  reason := s.reason
  changed := s.changed
  started := timeText gmtime_r s.started
  ended := timeText gmtime_r s.ended
  duration_ms := durationOf s.duration_ms
  outputs := s.outputs_json.bind Json.parse

def jobView (j : JobResult) : JobView where
  id := j.id
  outcome := j.outcome
  reason := j.reason
  detail := j.detail
  started := timeText gmtime_r j.started
  ended := timeText gmtime_r j.ended
  duration_ms := durationOf j.duration_ms
  dropped_bytes := j.dropped_bytes
  steps := j.steps.map (stepView gmtime_r)

def optionalText (s : Option Bytes) : Json.Value := (s.map Json.Value.string).getD .null

def optionalNumber (n : Option Nat) : Json.Value :=
  (n.map fun n => .number (n : Rat)).getD .null

def stepDocument (s : StepView) : Json.Value :=
  .object ([(bytes "id", optionalText s.id), (bytes "outcome", .string s.outcome),
    (bytes "reason", optionalText s.reason), (bytes "changed", .bool s.changed),
    (bytes "started", optionalText s.started), (bytes "ended", optionalText s.ended),
    (bytes "duration_ms", optionalNumber s.duration_ms)] ++
    (s.outputs.map fun outputs => (bytes "outputs", outputs)).toList)

def jobDocument (j : JobView) : Json.Value :=
  .object ([(bytes "outcome", .string j.outcome), (bytes "reason", optionalText j.reason)] ++
    (j.detail.map fun detail => (bytes "detail", Json.Value.string detail)).toList ++
    [(bytes "started", optionalText j.started), (bytes "ended", optionalText j.ended),
      (bytes "duration_ms", optionalNumber j.duration_ms),
      (bytes "dropped_bytes", .number (j.dropped_bytes : Rat)),
      (bytes "steps", .array (j.steps.map stepDocument))])

def runDocument (run_id : Bytes) (jobs : List JobView) : Json.Value :=
  .object [(bytes "run_id", .string run_id),
    (bytes "jobs", .object (jobs.map fun j => (j.id, jobDocument j)))]

end Documents

section Found

theorem nullable_optionalText (s : Option Bytes) :
    (optionalText s).nullable Json.Value.text = some s := by
  cases s <;> rfl

theorem nullable_optionalNumber (n : Option Nat) :
    (optionalNumber n).nullable Json.Value.natural = some n := by
  cases n with
  | none => rfl
  | some n =>
      change (Json.Value.natural (.number (n : Rat))).map some = some (some n)
      rw [Json.Value.natural_number]
      rfl

theorem readStep_stepDocument (s : StepView) : readStep (stepDocument s) = some s := by
  obtain ⟨v, same⟩ : ∃ v, v = stepDocument s := ⟨_, rfl⟩
  obtain ⟨id, outcome, reason, changed, started, ended, duration_ms, outputs⟩ := s
  have id_ : v.field (bytes "id") = some (optionalText id) := by
    rw [same]
    cases outputs <;> rfl
  have outcome_ : v.field (bytes "outcome") = some (.string outcome) := by
    rw [same]
    cases outputs <;> rfl
  have reason_ : v.field (bytes "reason") = some (optionalText reason) := by
    rw [same]
    cases outputs <;> rfl
  have changed_ : v.field (bytes "changed") = some (.bool changed) := by
    rw [same]
    cases outputs <;> rfl
  have started_ : v.field (bytes "started") = some (optionalText started) := by
    rw [same]
    cases outputs <;> rfl
  have ended_ : v.field (bytes "ended") = some (optionalText ended) := by
    rw [same]
    cases outputs <;> rfl
  have duration_ms_ : v.field (bytes "duration_ms") = some (optionalNumber duration_ms) := by
    rw [same]
    cases outputs <;> rfl
  have outputs_ : v.field (bytes "outputs") = outputs := by
    rw [same]
    cases outputs <;> rfl
  rw [← same, readStep, id_, outcome_, reason_, changed_, started_, ended_, duration_ms_, outputs_]
  simp only [Option.bind_some, nullable_optionalText, nullable_optionalNumber, Option.bind_eq_bind]
  rfl

theorem readSteps_array (steps : List StepView) :
    readSteps (.array (steps.map stepDocument)) = some steps := by
  rw [readSteps]
  induction steps with
  | nil => rfl
  | cons s steps inductionHypothesis =>
      rw [List.map_cons, List.mapM_cons, readStep_stepDocument, inductionHypothesis]
      rfl

theorem readJob_jobDocument (j : JobView) : readJob (j.id, jobDocument j) = some j := by
  obtain ⟨v, same⟩ : ∃ v, v = jobDocument j := ⟨_, rfl⟩
  obtain ⟨id, outcome, reason, detail, started, ended, duration_ms, dropped_bytes, steps⟩ := j
  have outcome_ : v.field (bytes "outcome") = some (.string outcome) := by
    rw [same]
    cases detail <;> rfl
  have reason_ : v.field (bytes "reason") = some (optionalText reason) := by
    rw [same]
    cases detail <;> rfl
  have started_ : v.field (bytes "started") = some (optionalText started) := by
    rw [same]
    cases detail <;> rfl
  have ended_ : v.field (bytes "ended") = some (optionalText ended) := by
    rw [same]
    cases detail <;> rfl
  have duration_ms_ : v.field (bytes "duration_ms") = some (optionalNumber duration_ms) := by
    rw [same]
    cases detail <;> rfl
  have dropped_bytes_ : v.field (bytes "dropped_bytes") = some (.number (dropped_bytes : Rat)) := by
    rw [same]
    cases detail <;> rfl
  have steps_ : v.field (bytes "steps") = some (.array (steps.map stepDocument)) := by
    rw [same]
    cases detail <;> rfl
  have detail_ : readDetail v = some detail := by
    rw [same]
    cases detail <;> rfl
  rw [← same, readJob]
  simp only [outcome_, reason_, detail_, started_, ended_, duration_ms_, dropped_bytes_, steps_,
    Option.bind_some, nullable_optionalText, nullable_optionalNumber, Json.Value.natural_number,
    readSteps_array, Option.bind_eq_bind]
  rfl

theorem readRun_runDocument (run_id : Bytes) {jobs : List JobView}
    (distinct : (jobs.map JobView.id).Nodup) :
    readRun (runDocument run_id jobs) = some (run_id, jobs) := by
  have run : (runDocument run_id jobs).field (bytes "run_id") = some (.string run_id) := rfl
  have found : (runDocument run_id jobs).field (bytes "jobs") =
      some (.object (jobs.map fun j => (j.id, jobDocument j))) := rfl
  have names : (jobs.map fun j => (j.id, jobDocument j)).map Prod.fst = jobs.map JobView.id := by
    rw [List.map_map]
    rfl
  have each : (jobs.map fun j => (j.id, jobDocument j)).mapM readJob = some jobs := by
    clear distinct run found names
    induction jobs with
    | nil => rfl
    | cons j jobs inductionHypothesis =>
        rw [List.map_cons, List.mapM_cons, readJob_jobDocument, inductionHypothesis]
        rfl
  rw [readRun, run, found, Option.bind_some, Option.bind_some, readJobs, names, if_pos distinct, each]
  rfl

end Found

/-! ## The text -/

/-- Printed ASCII that JSON does not escape. -/
def isSimple (c : UInt8) : Bool := 32 ≤ c && c < 128 && c != 34 && c != 92

/-- What has been written of a value. -/
structure Writes (text : Bytes) (v : Json.Value) : Prop where
  valid : Utf8 text
  reads : Reads text v

section Parts
variable {s name text : Bytes} {v : Json.Value} {c : UInt8}

theorem utf8_bytes (literal : String) : Utf8 (bytes literal) := by
  have valid := literal.isValidUTF8
  have same : (bytes literal).toByteArray = literal.toByteArray := by
    apply ByteArray.ext
    simp [bytes]
  rw [Utf8, same]
  exact valid

theorem spells_jsonByte (c : UInt8) : Spells (jsonByte c) [c] := by
  unfold jsonByte
  split_ifs with quote backslash lf cr tab control
  · rw [quote]
    exact Json.spells_escape (by decide)
  · rw [backslash]
    exact Json.spells_escape (by decide)
  · exact lf ▸ Json.spells_escape (by decide)
  · exact cr ▸ Json.spells_escape (by decide)
  · exact tab ▸ Json.spells_escape (by decide)
  · have small : c.toNat < 32 := UInt8.lt_iff_toNat_lt.mp control
    have unit : Json.codeUnit 48 48 (hexLower (c.toNat / 16)) (hexLower (c.toNat % 16)) =
        some c.toNat := by
      revert small
      generalize c.toNat = n
      intro small
      revert n
      decide
    have plain : Json.isHigh c.toNat = false := by
      rw [Json.isHigh, decide_eq_false (by omega), Bool.false_and]
    have single : Json.encode c.toNat = [c] := by
      rw [Json.encode, if_pos (by omega)]
      exact congrArg (fun d => [d]) UInt8.ofNat_toNat
    rw [← single]
    exact Json.spells_unit unit plain
  · exact Json.spells_byte quote backslash (UInt8.not_lt.mp control)

theorem spells_jsonBytes (s : Bytes) : Spells (s.flatMap jsonByte) s := by
  induction s with
  | nil => exact Json.spells_nil
  | cons c s inductionHypothesis => exact (spells_jsonByte c).append inductionHypothesis

theorem jsonByte_of_printed (printed : ¬ c < 32) (quote : c ≠ 34) (backslash : c ≠ 92) :
    jsonByte c = [c] := by
  have apart (d : UInt8) (control : d < 32) : c ≠ d := by
    rintro rfl
    exact printed control
  rw [jsonByte, if_neg quote, if_neg backslash, if_neg (apart 10 (by decide)),
    if_neg (apart 13 (by decide)), if_neg (apart 9 (by decide)), if_neg printed]

theorem hexLower_lt {d : Nat} (digit : d < 16) : hexLower d < 128 := by
  revert d
  decide

theorem utf8_jsonBytes (valid : Utf8 s) : Utf8 (s.flatMap jsonByte) := by
  refine Json.utf8_flatMap (fun c ascii => ?_) (fun c high => ?_) valid
  · unfold jsonByte
    split_ifs
    · rfl
    · rfl
    · rfl
    · rfl
    · rfl
    · have byte := c.toNat_lt
      have first := hexLower_lt (d := c.toNat / 16) (by omega)
      have second := hexLower_lt (d := c.toNat % 16) (by omega)
      simp only [unicodeEscape, List.all_cons, List.all_nil, first, second, decide_true]
      decide
    · simpa using ascii
  · refine jsonByte_of_printed ?_ ?_ ?_
    · exact fun control => absurd (UInt8.lt_of_le_of_lt high control) (by decide)
    · rintro rfl
      exact absurd high (by decide)
    · rintro rfl
      exact absurd high (by decide)

theorem jsonBytes_of_simple (simple : s.all isSimple = true) : s.flatMap jsonByte = s := by
  induction s with
  | nil => rfl
  | cons c s inductionHypothesis =>
      rw [List.all_cons, Bool.and_eq_true] at simple
      have first : isSimple c = true := simple.1
      simp only [isSimple, Bool.and_eq_true, decide_eq_true_eq, bne_iff_ne] at first
      rw [List.flatMap_cons, inductionHypothesis simple.2,
        jsonByte_of_printed (UInt8.not_lt.mpr first.1.1.1) first.1.2 first.2, List.singleton_append]

end Parts

section Pieces
variable {s text name : Bytes} {v : Json.Value}

/-- A string that a record holds. -/
structure Clean (s : Bytes) : Prop where
  nulFree : 0 ∉ s
  valid : Utf8 s

theorem spells_of_simple (simple : s.all isSimple = true) : Spells s s := by
  have spells := spells_jsonBytes s
  rw [jsonBytes_of_simple simple] at spells
  exact spells

theorem utf8_of_simple (simple : s.all isSimple = true) : Utf8 s := by
  apply Json.utf8_ascii
  rw [List.all_eq_true] at simple ⊢
  intro c inside
  have first := simple c inside
  simp only [isSimple, Bool.and_eq_true] at first
  exact first.1.1.2

theorem writes_quoted {quoted : Bytes} (valid : Utf8 quoted) (spells : Spells quoted s) :
    Writes (34 :: (quoted ++ [34])) (.string s) where
  valid := (utf8_bytes "\"").append (valid.append (utf8_bytes "\""))
  reads := Json.reads_string spells

theorem writes_json_string (clean : Clean s) : Writes (qwe_json_string s) (.string s) := by
  have writes := writes_quoted (utf8_jsonBytes clean.valid) (spells_jsonBytes s)
  rw [qwe_json_string, Lua.cString_eq_self clean.nulFree]
  exact writes

theorem writes_null : Writes (bytes "null") .null := ⟨utf8_bytes "null", Json.reads_null⟩

theorem writes_bool (b : Bool) : Writes (bytes (if b then "true" else "false")) (.bool b) := by
  cases b with
  | true => exact ⟨utf8_bytes "true", Json.reads_true⟩
  | false => exact ⟨utf8_bytes "false", Json.reads_false⟩

theorem writes_put_opt {s : Option Bytes} (clean : ∀ text ∈ s, Clean text) :
    Writes (put_opt s) (optionalText s) := by
  cases s with
  | none => exact writes_null
  | some text => exact writes_json_string (clean text rfl)

theorem simple_of_digit {text : Bytes}
    (digits : ∀ d ∈ text, 48 ≤ d.toNat ∧ d.toNat < 58) : text.all isSimple = true := by
  rw [List.all_eq_true]
  intro d inside
  have digit := digits d inside
  simp only [isSimple, Bool.and_eq_true, decide_eq_true_eq, bne_iff_ne, ne_eq,
    UInt8.le_iff_toNat_le, UInt8.lt_iff_toNat_lt, ← UInt8.toNat_inj, UInt8.reduceToNat]
  omega

theorem simple_decimalNat (n : Nat) : (decimalNat n).all isSimple = true :=
  simple_of_digit fun _ inside => Template.digit_of_mem_decimalNat inside

theorem simple_decimal (n : Int) : (decimal n).all isSimple = true := by
  unfold decimal
  split_ifs
  · rw [List.all_cons, simple_decimalNat]
    rfl
  · exact simple_decimalNat _

theorem simple_two (n : Nat) : (two n).all isSimple = true := by
  unfold two
  split_ifs
  · rw [List.all_cons, simple_decimalNat]
    rfl
  · exact simple_decimalNat _

theorem writes_decimalNat (n : Nat) : Writes (decimalNat n) (.number (n : Rat)) :=
  ⟨utf8_of_simple (simple_decimalNat n), Json.reads_numeral n⟩

theorem writes_put_duration (ms : Int) : Writes (put_duration ms) (optionalNumber (durationOf ms)) := by
  unfold put_duration durationOf
  by_cases never : ms < 0
  · rw [if_pos never, if_pos never]
    exact writes_null
  · rw [if_neg never, if_neg never, decimal, if_neg never]
    exact writes_decimalNat _

theorem simple_strftime {n : Nat} {tm : Tm} {stamp : Bytes} (printed : strftime n tm = some stamp) :
    stamp.all isSimple = true := by
  have marks : (bytes "-").all isSimple = true ∧ (bytes "T").all isSimple = true ∧
      (bytes ":").all isSimple = true ∧ (bytes "Z").all isSimple = true := by decide
  simp only [strftime, Option.ite_none_right_eq_some, Option.some.injEq] at printed
  rw [← printed.2]
  simp only [List.all_append, simple_decimal, simple_two, marks, Bool.and_self]

theorem writes_put_time (gmtime_r : Int → Option Tm) (t : Int) :
    Writes (put_time gmtime_r t) (optionalText (timeText gmtime_r t)) := by
  unfold put_time timeText
  by_cases never : t = 0
  · rw [if_pos never, if_pos never]
    exact writes_null
  · rw [if_neg never, if_neg never]
    have quoted (stamp : Bytes) (simple : stamp.all isSimple = true) :
        Writes (bytes "\"" ++ stamp ++ bytes "\"") (.string stamp) :=
      writes_quoted (utf8_of_simple simple) (spells_of_simple simple)
    cases printed : (gmtime_r t).bind (strftime 32) with
    | none => exact quoted _ (simple_decimal t)
    | some stamp =>
        obtain ⟨tm, -, done⟩ := Option.bind_eq_some_iff.mp printed
        exact quoted _ (simple_strftime done)

end Pieces

/-! ## Lists in the text -/

/-- A new line, a name and its colon. -/
def named (indent : Nat) (name : Bytes) : Bytes :=
  10 :: (List.replicate indent 32 ++ 34 :: (name ++ [34, 58, 32]))

/-- What has been written of a member. -/
structure WritesMember (text : Bytes) (m : Bytes × Json.Value) : Prop where
  valid : Utf8 text
  reads : ReadsMember text m

section Lists
variable {texts : List Bytes} {text name quoted : Bytes} {v : Json.Value} {indent : Nat}

theorem blank_line (indent : Nat) : (10 :: List.replicate indent 32).all Json.isSpace = true := by
  rw [List.all_cons, List.all_replicate]
  simp [Json.isSpace]

theorem utf8_line (indent : Nat) : Utf8 (10 :: List.replicate indent 32) := by
  apply Json.utf8_ascii
  rw [List.all_cons, List.all_replicate]
  simp

/-- A member with its name in any spelling. -/
theorem writes_member (indent : Nat) (valid : Utf8 quoted) (spells : Spells quoted name)
    (writes : Writes text v) :
    WritesMember (10 :: (List.replicate indent 32 ++ 34 :: (quoted ++ 34 :: 58 :: 32 :: text)))
      (name, v) where
  valid := (utf8_line indent).append ((utf8_bytes "\"").append
    (valid.append ((utf8_bytes "\": ").append writes.valid)))
  reads :=
    have blank : [(32 : UInt8)].all Json.isSpace = true := by decide
    Json.reads_member (blank_line indent) spells (writes.reads.spaced blank)

theorem writes_named (indent : Nat) (simple : name.all isSimple = true) (writes : Writes text v) :
    WritesMember (named indent name ++ text) (name, v) := by
  have writes := writes_member indent (utf8_of_simple simple) (spells_of_simple simple) writes
  rw [named]
  simpa using writes

theorem intercalate_cons (text : Bytes) (texts : List Bytes) :
    [44].intercalate (text :: texts) = text ++ texts.flatMap (44 :: ·) := by
  induction texts generalizing text with
  | nil => simp
  | cons next texts inductionHypothesis =>
      rw [List.intercalate_cons_cons, inductionHypothesis next, List.flatMap_cons]
      simp

/-- The loops of `qwe_result_write`: all turns but the first write a comma. -/
theorem flatten_mapIdx {α : Type} (f : α → Bytes) (l : List α) :
    (l.mapIdx fun k a => (if k ≠ 0 then [44] else []) ++ f a).flatten =
      [44].intercalate (l.map f) := by
  cases l with
  | nil => rfl
  | cons a l =>
      have later : (l.mapIdx fun k a => (if k + 1 ≠ 0 then [44] else []) ++ f a) =
          l.map fun a => 44 :: f a := by
        simp only [Nat.succ_ne_zero, ne_eq, not_false_eq_true, if_true, List.singleton_append]
        clear a
        induction l with
        | nil => rfl
        | cons a l inductionHypothesis =>
            rw [List.mapIdx_cons, inductionHypothesis, List.map_cons]
      rw [List.mapIdx_cons, later, List.flatten_cons, List.map_cons, intercalate_cons,
        List.flatMap_map, List.flatMap_def]
      rfl

theorem utf8_intercalate {α : Type} {R : Bytes → α → Prop} {found : List α}
    (valid : ∀ text a, R text a → Utf8 text) (each : List.Forall₂ R texts found) :
    Utf8 ([44].intercalate texts) := by
  induction each with
  | nil => exact Json.utf8_nil
  | @cons text a texts found first each inductionHypothesis =>
      by_cases last : texts = []
      · rw [last, List.intercalate_singleton]
        exact valid text a first
      · rw [List.intercalate_cons_of_ne_nil last]
        exact ((valid text a first).append (utf8_bytes ",")).append inductionHypothesis

theorem writes_object {ms : List (Bytes × Json.Value)} {spaces : Bytes}
    (blank : spaces.all Json.isSpace = true) (valid : Utf8 spaces)
    (each : List.Forall₂ WritesMember texts ms) :
    Writes (123 :: ([44].intercalate texts ++ (spaces ++ [125]))) (.object ms) where
  valid := (utf8_bytes "\x7b").append ((utf8_intercalate (fun _ _ writes => writes.valid)
    each).append (valid.append (utf8_bytes "\x7d")))
  reads := Json.reads_object blank (each.imp fun _ _ writes => writes.reads)

theorem writes_array {vs : List Json.Value} {spaces : Bytes}
    (blank : spaces.all Json.isSpace = true) (valid : Utf8 spaces)
    (each : List.Forall₂ Writes texts vs) :
    Writes (91 :: ([44].intercalate texts ++ (spaces ++ [93]))) (.array vs) where
  valid := (utf8_bytes "[").append ((utf8_intercalate (fun _ _ writes => writes.valid)
    each).append (valid.append (utf8_bytes "]")))
  reads := Json.reads_array blank (each.imp fun _ _ writes => writes.reads)

end Lists

/-! ## Steps, jobs and the run -/

section Records
variable {gmtime_r : Int → Option Tm} {s : StepResult} {j : JobResult}

/-- What the records of a step hold that is written. -/
structure StepClean (s : StepResult) : Prop where
  id : ∀ text ∈ s.id, Clean text
  outcome : Clean s.outcome
  reason : ∀ text ∈ s.reason, Clean text
  /-- the outputs are one JSON object -/
  outputs : ∀ text ∈ s.outputs_json, 0 ∉ text ∧ ∃ members, Json.parse text = some (.object members)

structure JobClean (j : JobResult) : Prop where
  id : Clean j.id
  outcome : Clean j.outcome
  reason : ∀ text ∈ j.reason, Clean text
  detail : ∀ text ∈ j.detail, Clean text
  steps : ∀ s ∈ j.steps, StepClean s

/-- The members of a step's object as they are written. -/
def stepMembers (gmtime_r : Int → Option Tm) (s : StepResult) : List Bytes :=
  [named 10 (bytes "id") ++ put_opt s.id,
    named 10 (bytes "outcome") ++ qwe_json_string s.outcome,
    named 10 (bytes "reason") ++ put_opt s.reason,
    named 10 (bytes "changed") ++ bytes (if s.changed then "true" else "false"),
    named 10 (bytes "started") ++ put_time gmtime_r s.started,
    named 10 (bytes "ended") ++ put_time gmtime_r s.ended,
    named 10 (bytes "duration_ms") ++ put_duration s.duration_ms] ++
    (s.outputs_json.map fun outputs => named 10 (bytes "outputs") ++ cString outputs).toList

def stepObject (gmtime_r : Int → Option Tm) (s : StepResult) : Bytes :=
  10 :: (List.replicate 8 32 ++
    123 :: ([44].intercalate (stepMembers gmtime_r s) ++ (10 :: List.replicate 8 32 ++ [125])))

theorem stepText_eq (gmtime_r : Int → Option Tm) (k : Nat) (s : StepResult) :
    stepText gmtime_r k s = (if k ≠ 0 then [44] else []) ++ stepObject gmtime_r s := by
  have first : bytes "\n        \x7b\n          \"id\": " =
      10 :: (List.replicate 8 32 ++ 123 :: named 10 (bytes "id")) := by decide
  have later : bytes ",\n        \x7b\n          \"id\": " =
      44 :: 10 :: (List.replicate 8 32 ++ 123 :: named 10 (bytes "id")) := by decide
  have outcome : bytes ",\n          \"outcome\": " = 44 :: named 10 (bytes "outcome") := by decide
  have reason : bytes ",\n          \"reason\": " = 44 :: named 10 (bytes "reason") := by decide
  have changed : bytes ",\n          \"changed\": " = 44 :: named 10 (bytes "changed") := by decide
  have started : bytes ",\n          \"started\": " = 44 :: named 10 (bytes "started") := by decide
  have ended : bytes ",\n          \"ended\": " = 44 :: named 10 (bytes "ended") := by decide
  have duration : bytes ",\n          \"duration_ms\": " = 44 :: named 10 (bytes "duration_ms") := by
    decide
  have outputs : bytes ",\n          \"outputs\": " = 44 :: named 10 (bytes "outputs") := by decide
  have last : bytes "\n        \x7d" = 10 :: List.replicate 8 32 ++ [125] := by decide
  have begins : bytes (if k ≠ 0 then ",\n        \x7b\n          \"id\": "
      else "\n        \x7b\n          \"id\": ") = (if k ≠ 0 then [44] else []) ++
        10 :: (List.replicate 8 32 ++ 123 :: named 10 (bytes "id")) := by
    by_cases none : k = 0
    · rw [if_neg (not_not_intro none), if_neg (not_not_intro none), first]
      rfl
    · rw [if_pos none, if_pos none, later]
      rfl
  rw [stepText, begins, outcome, reason, changed, started, ended, duration, outputs, last,
    stepObject, stepMembers]
  generalize List.replicate 8 (32 : UInt8) = spaces
  cases s.outputs_json <;> simp

theorem Writes.spaced {text spaces : Bytes} {v : Json.Value} (writes : Writes text v)
    (blank : spaces.all Json.isSpace = true) (valid : Utf8 spaces) : Writes (spaces ++ text) v :=
  ⟨valid.append writes.valid, writes.reads.spaced blank⟩

theorem writes_stepObject (gmtime_r : Int → Option Tm) (clean : StepClean s) :
    Writes (stepObject gmtime_r s) (stepDocument (stepView gmtime_r s)) := by
  have members : List.Forall₂ WritesMember (stepMembers gmtime_r s)
      ([(bytes "id", optionalText s.id), (bytes "outcome", .string s.outcome),
        (bytes "reason", optionalText s.reason), (bytes "changed", .bool s.changed),
        (bytes "started", optionalText (timeText gmtime_r s.started)),
        (bytes "ended", optionalText (timeText gmtime_r s.ended)),
        (bytes "duration_ms", optionalNumber (durationOf s.duration_ms))] ++
        ((s.outputs_json.bind Json.parse).map fun outputs => (bytes "outputs", outputs)).toList) := by
    refine List.rel_append (.cons (writes_named 10 (by decide) (writes_put_opt clean.id))
      (.cons (writes_named 10 (by decide) (writes_json_string clean.outcome))
      (.cons (writes_named 10 (by decide) (writes_put_opt clean.reason))
      (.cons (writes_named 10 (by decide) (writes_bool s.changed))
      (.cons (writes_named 10 (by decide) (writes_put_time gmtime_r s.started))
      (.cons (writes_named 10 (by decide) (writes_put_time gmtime_r s.ended))
      (.cons (writes_named 10 (by decide) (writes_put_duration s.duration_ms)) .nil))))))) ?_
    cases stored : s.outputs_json with
    | none => exact .nil
    | some outputs =>
        obtain ⟨free, members, parsed⟩ := clean.outputs outputs stored
        obtain ⟨valid, reads⟩ := Json.reads_of_parse parsed
        rw [Option.bind_some, parsed, Option.map_some, Option.map_some, Lua.cString_eq_self free]
        exact .cons (writes_named 10 (by decide) ⟨valid, reads⟩) .nil
  exact (writes_object (blank_line 8) (utf8_line 8) members).spaced (blank_line 8) (utf8_line 8)

/-- The members of a job's object as they are written. -/
def jobMembers (gmtime_r : Int → Option Tm) (j : JobResult) : List Bytes :=
  [named 6 (bytes "outcome") ++ qwe_json_string j.outcome,
    named 6 (bytes "reason") ++ put_opt j.reason] ++
    (j.detail.map fun detail => named 6 (bytes "detail") ++ qwe_json_string detail).toList ++
    [named 6 (bytes "started") ++ put_time gmtime_r j.started,
      named 6 (bytes "ended") ++ put_time gmtime_r j.ended,
      named 6 (bytes "duration_ms") ++ put_duration j.duration_ms,
      named 6 (bytes "dropped_bytes") ++ decimalNat j.dropped_bytes,
      named 6 (bytes "steps") ++ 91 :: ([44].intercalate (j.steps.map (stepObject gmtime_r)) ++
        ((if j.steps.length ≠ 0 then 10 :: List.replicate 6 32 else []) ++ [93]))]

/-- A job's member of the object of all jobs. -/
def jobMember (gmtime_r : Int → Option Tm) (j : JobResult) : Bytes :=
  10 :: (List.replicate 4 32 ++ 34 :: ((cString j.id).flatMap jsonByte ++ 34 :: 58 :: 32 ::
    123 :: ([44].intercalate (jobMembers gmtime_r j) ++ (10 :: List.replicate 4 32 ++ [125]))))

theorem jobText_eq (gmtime_r : Int → Option Tm) (i : Nat) (j : JobResult) :
    jobText gmtime_r i j = (if i ≠ 0 then [44] else []) ++ jobMember gmtime_r j := by
  have first : bytes "\n    " = 10 :: List.replicate 4 32 := by decide
  have later : bytes ",\n    " = 44 :: 10 :: List.replicate 4 32 := by decide
  have outcome : bytes ": \x7b\n      \"outcome\": " = 58 :: 32 :: 123 :: named 6 (bytes "outcome") := by
    decide
  have reason : bytes ",\n      \"reason\": " = 44 :: named 6 (bytes "reason") := by decide
  have detail : bytes ",\n      \"detail\": " = 44 :: named 6 (bytes "detail") := by decide
  have started : bytes ",\n      \"started\": " = 44 :: named 6 (bytes "started") := by decide
  have ended : bytes ",\n      \"ended\": " = 44 :: named 6 (bytes "ended") := by decide
  have duration : bytes ",\n      \"duration_ms\": " = 44 :: named 6 (bytes "duration_ms") := by decide
  have dropped : bytes ",\n      \"dropped_bytes\": " = 44 :: named 6 (bytes "dropped_bytes") := by
    decide
  have steps : bytes ",\n      \"steps\": [" = 44 :: (named 6 (bytes "steps") ++ [91]) := by decide
  have begins : bytes (if i ≠ 0 then ",\n    " else "\n    ") =
      (if i ≠ 0 then [44] else []) ++ 10 :: List.replicate 4 32 := by
    by_cases none : i = 0
    · rw [if_neg (not_not_intro none), if_neg (not_not_intro none), first]
      rfl
    · rw [if_pos none, if_pos none, later]
      rfl
  have last : bytes (if j.steps.length ≠ 0 then "\n      ]\n    \x7d" else "]\n    \x7d") =
      (if j.steps.length ≠ 0 then 10 :: List.replicate 6 32 else []) ++ [93] ++
        (10 :: List.replicate 4 32 ++ [125]) := by
    by_cases none : j.steps.length = 0
    · rw [if_neg (not_not_intro none), if_neg (not_not_intro none)]
      decide
    · rw [if_pos none, if_pos none]
      decide
  have turns : (j.steps.mapIdx (stepText gmtime_r)).flatten =
      [44].intercalate (j.steps.map (stepObject gmtime_r)) := by
    rw [← flatten_mapIdx]
    exact congrArg List.flatten
      (congrArg (fun f => j.steps.mapIdx f) (funext₂ (stepText_eq gmtime_r)))
  rw [jobText, begins, outcome, reason, detail, started, ended, duration, dropped, steps, last,
    turns, jobMember, jobMembers, qwe_json_string]
  generalize List.replicate 4 (32 : UInt8) = spaces
  generalize (if j.steps.length ≠ 0 then 10 :: List.replicate 6 (32 : UInt8) else []) = indent
  generalize [44].intercalate (j.steps.map (stepObject gmtime_r)) = objects
  cases j.detail <;> simp

theorem writes_steps (gmtime_r : Int → Option Tm) (clean : ∀ s ∈ j.steps, StepClean s) :
    Writes (91 :: ([44].intercalate (j.steps.map (stepObject gmtime_r)) ++
        ((if j.steps.length ≠ 0 then 10 :: List.replicate 6 32 else []) ++ [93])))
      (.array ((j.steps.map (stepView gmtime_r)).map stepDocument)) := by
  refine writes_array ?_ ?_ ?_
  · split_ifs
    · exact blank_line 6
    · rfl
  · split_ifs
    · exact utf8_line 6
    · exact Json.utf8_nil
  · rw [List.map_map, List.forall₂_map_left_iff, List.forall₂_map_right_iff, List.forall₂_same]
    exact fun s inside => writes_stepObject gmtime_r (clean s inside)

theorem writes_jobMember (gmtime_r : Int → Option Tm) (clean : JobClean j) :
    WritesMember (jobMember gmtime_r j) (j.id, jobDocument (jobView gmtime_r j)) := by
  have detail : List.Forall₂ WritesMember
      (j.detail.map fun detail => named 6 (bytes "detail") ++ qwe_json_string detail).toList
      (j.detail.map fun detail => (bytes "detail", Json.Value.string detail)).toList := by
    cases stored : j.detail with
    | none => exact .nil
    | some detail =>
        exact .cons (writes_named 6 (by decide) (writes_json_string (clean.detail detail stored)))
          .nil
  have members : List.Forall₂ WritesMember (jobMembers gmtime_r j)
      ([(bytes "outcome", .string j.outcome), (bytes "reason", optionalText j.reason)] ++
        (j.detail.map fun detail => (bytes "detail", Json.Value.string detail)).toList ++
        [(bytes "started", optionalText (timeText gmtime_r j.started)),
          (bytes "ended", optionalText (timeText gmtime_r j.ended)),
          (bytes "duration_ms", optionalNumber (durationOf j.duration_ms)),
          (bytes "dropped_bytes", .number (j.dropped_bytes : Rat)),
          (bytes "steps", .array ((j.steps.map (stepView gmtime_r)).map stepDocument))]) :=
    List.rel_append (List.rel_append
      (.cons (writes_named 6 (by decide) (writes_json_string clean.outcome))
      (.cons (writes_named 6 (by decide) (writes_put_opt clean.reason)) .nil)) detail)
      (.cons (writes_named 6 (by decide) (writes_put_time gmtime_r j.started))
      (.cons (writes_named 6 (by decide) (writes_put_time gmtime_r j.ended))
      (.cons (writes_named 6 (by decide) (writes_put_duration j.duration_ms))
      (.cons (writes_named 6 (by decide) (writes_decimalNat j.dropped_bytes))
      (.cons (writes_named 6 (by decide) (writes_steps gmtime_r clean.steps)) .nil)))))
  rw [jobMember, Lua.cString_eq_self clean.id.nulFree]
  exact writes_member 4 (utf8_jsonBytes clean.id.valid) (spells_jsonBytes j.id)
    (writes_object (blank_line 4) (utf8_line 4) members)

end Records

/-- A run whose result can be written: the ids of its jobs are distinct. -/
structure RunClean (run_id : Bytes) (jobs : List JobResult) : Prop where
  run : Clean run_id
  each : ∀ j ∈ jobs, JobClean j
  distinct : (jobs.map JobResult.id).Nodup

section Run
variable {run_id : Bytes} {jobs : List JobResult}

theorem qwe_result_write_eq (gmtime_r : Int → Option Tm) (run_id : Bytes) (jobs : List JobResult) :
    qwe_result_write gmtime_r run_id jobs =
      123 :: ([44].intercalate [named 2 (bytes "run_id") ++ qwe_json_string run_id,
        named 2 (bytes "jobs") ++ 123 :: ([44].intercalate (jobs.map (jobMember gmtime_r)) ++
          ((if jobs.length ≠ 0 then 10 :: List.replicate 2 32 else []) ++ [125]))] ++
        ([10] ++ [125])) ++ [10] := by
  have first : bytes "\x7b\n  \"run_id\": " = 123 :: named 2 (bytes "run_id") := by decide
  have later : bytes ",\n  \"jobs\": \x7b" = 44 :: (named 2 (bytes "jobs") ++ [123]) := by decide
  have last : bytes (if jobs.length ≠ 0 then "\n  \x7d\n\x7d\n" else "\x7d\n\x7d\n") =
      (if jobs.length ≠ 0 then 10 :: List.replicate 2 32 else []) ++ [125, 10, 125, 10] := by
    by_cases none : jobs.length = 0
    · rw [if_neg (not_not_intro none), if_neg (not_not_intro none)]
      decide
    · rw [if_pos none, if_pos none]
      decide
  have turns : (jobs.mapIdx (jobText gmtime_r)).flatten =
      [44].intercalate (jobs.map (jobMember gmtime_r)) := by
    rw [← flatten_mapIdx]
    exact congrArg List.flatten (congrArg (fun f => jobs.mapIdx f) (funext₂ (jobText_eq gmtime_r)))
  rw [qwe_result_write, first, later, last, turns]
  simp

/-- What is written is the text of the document. -/
theorem writes_run (gmtime_r : Int → Option Tm) (clean : RunClean run_id jobs) :
    Writes (qwe_result_write gmtime_r run_id jobs)
      (runDocument run_id (jobs.map (jobView gmtime_r))) := by
  have inner : Writes (123 :: ([44].intercalate (jobs.map (jobMember gmtime_r)) ++
      ((if jobs.length ≠ 0 then 10 :: List.replicate 2 32 else []) ++ [125])))
      (.object ((jobs.map (jobView gmtime_r)).map fun j => (j.id, jobDocument j))) := by
    refine writes_object ?_ ?_ ?_
    · split_ifs
      · exact blank_line 2
      · rfl
    · split_ifs
      · exact utf8_line 2
      · exact Json.utf8_nil
    · rw [List.map_map, List.forall₂_map_left_iff, List.forall₂_map_right_iff, List.forall₂_same]
      exact fun j inside => writes_jobMember gmtime_r (clean.each j inside)
  have run_id_ : WritesMember (named 2 (bytes "run_id") ++ qwe_json_string run_id)
      (bytes "run_id", .string run_id) :=
    writes_named 2 (by decide) (writes_json_string clean.run)
  have simple : (bytes "jobs").all isSimple = true := by decide
  have jobs_ := writes_named 2 simple inner
  have outer := writes_object (blank_line 0) (utf8_line 0) (.cons run_id_ (.cons jobs_ .nil))
  rw [qwe_result_write_eq]
  exact ⟨outer.valid.append (utf8_line 0), outer.reads.trailed (blank_line 0)⟩

/-- A failed job with a note and one step. -/
def reported : JobResult where
  id := bytes "build"
  outcome := bytes "failed"
  reason := some (bytes "exit-code")
  detail := some (bytes "\"quoted\"\n")
  started := 1
  ended := 2
  duration_ms := 1000
  dropped_bytes := 7
  steps := [{
    id := some (bytes "s")
    outcome := bytes "failed"
    reason := none
    changed := true
    outputs_json := some (bytes "\x7b\"path\":\"tmp\"\x7d")
    started := 1
    ended := 2
    duration_ms := -1
    name := none
    plugin := none }]

theorem clean_reported : RunClean (bytes "r") [reported] := by
  have clean (literal : String) (free : 0 ∉ bytes literal) : Clean (bytes literal) :=
    ⟨free, utf8_bytes literal⟩
  have member : ReadsMember
      ([] ++ 34 :: (bytes "path" ++ 34 :: 58 :: 34 :: (bytes "tmp" ++ [34])))
      (bytes "path", .string (bytes "tmp")) :=
    Json.reads_member (by decide) (spells_of_simple (by decide))
      (Json.reads_string (spells_of_simple (by decide)))
  have object := Json.reads_object (by decide : ([] : Bytes).all Json.isSpace = true)
    (.cons member .nil)
  have outputs : Json.parse (bytes "\x7b\"path\":\"tmp\"\x7d") =
      some (.object [(bytes "path", .string (bytes "tmp"))]) :=
    Json.parse_of_reads (utf8_bytes "\x7b\"path\":\"tmp\"\x7d") object
  have step : ∀ s ∈ reported.steps, StepClean s := by
    intro s inside
    rw [List.mem_singleton.mp inside]
    refine ⟨?_, clean "failed" (by decide), ?_, ?_⟩
    · exact fun text same => Option.some.inj same ▸ clean "s" (by decide)
    · exact fun text same => absurd same (Option.not_mem_none text)
    · exact fun text same => Option.some.inj same ▸ ⟨by decide, _, outputs⟩
  refine ⟨clean "r" (by decide), fun j inside => ?_, List.nodup_singleton _⟩
  rw [List.mem_singleton.mp inside]
  refine ⟨clean "build" (by decide), clean "failed" (by decide), ?_, ?_, step⟩
  · exact fun text same => Option.some.inj same ▸ clean "exit-code" (by decide)
  · exact fun text same => Option.some.inj same ▸ clean "\"quoted\"\n" (by decide)

/-- `result.json` is one JSON document, and it tells of exactly the jobs and steps that it was
written from. -/
theorem result_json_faithful (gmtime_r : Int → Option Tm) (clean : RunClean run_id jobs) :
    ∃ document, Json.parse (qwe_result_write gmtime_r run_id jobs) = some document ∧
      readRun document = some (run_id, jobs.map (jobView gmtime_r)) := by
  have writes := writes_run gmtime_r clean
  have distinct : ((jobs.map (jobView gmtime_r)).map JobView.id).Nodup := by
    rw [List.map_map]
    exact clean.distinct
  exact ⟨_, Json.parse_of_reads writes.valid writes.reads, readRun_runDocument run_id distinct⟩

/-- `gmtime_r` in the first minute of its epoch. -/
def firstMinute (t : Int) : Option Tm :=
  if 0 ≤ t ∧ t < 60 then some ⟨70, 0, 1, 0, 0, Fin.ofNat 61 t.toNat⟩ else none

theorem result_json_faithful_outputs :
    ∃ document, Json.parse (qwe_result_write firstMinute (bytes "r") [reported]) = some document ∧
      readRun document = some (bytes "r", [reported].map (jobView firstMinute)) :=
  result_json_faithful firstMinute clean_reported

end Run

end Qwe.Report
