import Qwe.Template.Document

/-!
# The records of a run

`struct qwe_step_result` and `struct qwe_job_result` of `src/kernel/result.h`, which
`result.json` and the summary are written from.
-/

set_option autoImplicit false

namespace Qwe.Report

open Qwe.Redact (Bytes)
open Qwe.Template (bytes)

/-- `struct qwe_step_result`.  The clock readings are seconds, 0 where the step never started. -/
structure StepResult where
  id : Option Bytes
  outcome : Bytes
  reason : Option Bytes
  changed : Bool
  outputs_json : Option Bytes
  started : Int
  ended : Int
  duration_ms : Int
  name : Option Bytes
  plugin : Option Bytes
deriving DecidableEq, Repr

/-- `struct qwe_job_result` -/
structure JobResult where
  id : Bytes
  outcome : Bytes
  reason : Option Bytes
  detail : Option Bytes
  started : Int
  ended : Int
  duration_ms : Int
  dropped_bytes : Nat
  steps : List StepResult
deriving DecidableEq, Repr

/-- The outcomes that a run gives to its jobs and steps. -/
def outcomes : List Bytes := ["success", "failed", "skipped", "cancelled"].map bytes

end Qwe.Report
