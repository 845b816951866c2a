import Qwe.Lib.Grep
import Qwe.Lib.Lines
import Qwe.Lib.Numerals
import Qwe.Template.Accepted

/-!
# Step tokens

`fmt_run_id` and the step token of `src/kernel/workflow.c`, and the script of
`plugins/builtin/backend-ssh/ssh.lua` that looks a token up in the environments
of the processes on a host.  The token is the pattern of `grep -x` there, and its
dots match any character.
-/

set_option autoImplicit false

namespace Qwe.Token

open Qwe.Redact (Bytes)
open Qwe.Template (bytes decimal decimalNat idProblem isNameByte isName)

/-! ## Run ids -/

/-- `struct tm` as `gmtime_r` fills it. -/
structure Tm where
  tm_year : Int
  tm_mon : Fin 12
  tm_mday : Fin 32
  tm_hour : Fin 24
  tm_min : Fin 60
  tm_sec : Fin 61
deriving DecidableEq, Repr

/-- `%02d` -/
def two (n : Nat) : Bytes := if n < 10 then 48 :: decimalNat n else decimalNat n

/-- `strftime` with `%Y%m%dT%H%M%SZ`: nothing where the text and its NUL exceed `n` bytes. -/
def strftime (n : Nat) (tm : Tm) : Option Bytes :=
  let text := decimal (tm.tm_year + 1900) ++ two (tm.tm_mon + 1) ++ two tm.tm_mday ++ bytes "T" ++
    two tm.tm_hour ++ two tm.tm_min ++ two tm.tm_sec ++ bytes "Z"
  if text.length < n then some text else none

/-- `qwe_xfmt`: `none` is the abort on a text that is cut. -/
def qwe_xfmt (n : Nat) (text : Bytes) : Option Bytes := if text.length < n then some text else none

/-- The UTC time; the epoch seconds for a clock that `gmtime_r` cannot break down. -/
def fmt_time (gmtime_r : Int → Option Tm) (n : Nat) (now : Int) : Option Bytes :=
  match (gmtime_r now).bind (strftime n) with
  | some stamp => some stamp
  | none => qwe_xfmt n (decimal now)

def fmt_run_id (gmtime_r : Int → Option Tm) (n : Nat) (now pid : Int) : Option Bytes := do
  let stamp ← fmt_time gmtime_r n now
  let rest ← qwe_xfmt (n - stamp.length) (bytes "-" ++ decimal pid)
  return stamp ++ rest

def IsRunId (run_id : Bytes) : Prop :=
  ∃ gmtime_r n now pid, fmt_run_id gmtime_r n now pid = some run_id

/-! ## Tokens -/

/-- `"%s.%s.%lu"` -/
def step_token (run_id job_id : Bytes) (cur : Nat) : Bytes :=
  run_id ++ bytes "." ++ job_id ++ bytes "." ++ decimalNat cur

/-- `QWE_STEP=`, and a token -/
def assignment (token : Bytes) : Bytes := bytes "QWE_STEP=" ++ token

/-- The lines of `tr '\0' '\n' < environ` -/
def environ_lines (environ : Bytes) : List Bytes :=
  (Lines.read 10 (environ.map fun b => if b = 0 then 10 else b)).1

/-- `grep -qx "QWE_STEP=$tok"`: whether `KILLER` signals the process that has the environment. -/
def signals (tok environ : Bytes) : Option Bool :=
  Grep.grep_qx (assignment tok) (environ_lines environ)

/-! ## What a token is made of -/

section Fields
variable {run_id job_id : Bytes}

/-- Letters, digits, `_` and `-` only. -/
def IsField (text : Bytes) : Prop := ∀ b ∈ text, isNameByte [45] b = true

theorem nameByte_plain {b : UInt8} (named : isNameByte [45] b = true) :
    (b < 128 ∧ b ∉ Grep.special) ∧ b ≠ 46 ∧ b ≠ 0 := by
  simp only [isNameByte, Template.isLetter, Template.isDigit, List.contains_eq_mem,
    List.mem_singleton, Bool.or_eq_true, Bool.and_eq_true, decide_eq_true_eq, beq_iff_eq,
    UInt8.le_iff_toNat_le, ← UInt8.toNat_inj, UInt8.reduceToNat] at named
  simp only [Grep.special, List.mem_cons, List.not_mem_nil, or_false, ne_eq, not_or,
    UInt8.lt_iff_toNat_lt, ← UInt8.toNat_inj, UInt8.reduceToNat]
  omega

theorem isField_of_all {text : Bytes} (all : text.all (isNameByte [45]) = true) : IsField text :=
  List.all_eq_true.mp all

theorem isField_append {a b : Bytes} (left : IsField a) (right : IsField b) : IsField (a ++ b) :=
  List.forall_mem_append.mpr ⟨left, right⟩

theorem isField_decimalNat (n : Nat) : IsField (decimalNat n) := by
  intro d inside
  rw [isNameByte, Template.isDigit_of_mem_decimalNat inside, Bool.or_true, Bool.true_or,
    Bool.true_or]

theorem isField_decimal (n : Int) : IsField (decimal n) := by
  unfold decimal
  split_ifs
  · exact List.forall_mem_cons.mpr ⟨by decide, isField_decimalNat _⟩
  · exact isField_decimalNat _

theorem isField_two (n : Nat) : IsField (two n) := by
  unfold two
  split_ifs
  · exact List.forall_mem_cons.mpr ⟨by decide, isField_decimalNat _⟩
  · exact isField_decimalNat _

theorem isField_strftime {n : Nat} {tm : Tm} {stamp : Bytes}
    (printed : strftime n tm = some stamp) : IsField stamp := by
  simp only [strftime, Option.ite_none_right_eq_some, Option.some.injEq] at printed
  rw [← printed.2]
  refine isField_append (isField_append (isField_append (isField_append (isField_append
    (isField_append (isField_append ?_ ?_) ?_) ?_) ?_) ?_) ?_) ?_
  · exact isField_decimal _
  · exact isField_two _
  · exact isField_two _
  · exact isField_of_all (by decide)
  · exact isField_two _
  · exact isField_two _
  · exact isField_two _
  · exact isField_of_all (by decide)

theorem qwe_xfmt_eq_some {n : Nat} {text done : Bytes} :
    qwe_xfmt n text = some done ↔ text.length < n ∧ text = done := by
  rw [qwe_xfmt, Option.ite_none_right_eq_some, Option.some.injEq]

theorem isField_fmt_time {gmtime_r : Int → Option Tm} {n : Nat} {now : Int} {stamp : Bytes}
    (printed : fmt_time gmtime_r n now = some stamp) : IsField stamp := by
  unfold fmt_time at printed
  split at printed
  · next broken_down =>
      obtain ⟨tm, -, stamped⟩ := Option.bind_eq_some_iff.mp broken_down
      rw [← Option.some.inj printed]
      exact isField_strftime stamped
  · rw [← (qwe_xfmt_eq_some.mp printed).2]
    exact isField_decimal now

theorem isField_run_id (made : IsRunId run_id) : IsField run_id := by
  obtain ⟨gmtime_r, n, now, pid, printed⟩ := made
  simp only [fmt_run_id, Option.bind_eq_bind, Option.bind_eq_some_iff, qwe_xfmt_eq_some,
    Option.pure_def, Option.some.injEq] at printed
  obtain ⟨stamp, stamp_eq, rest, ⟨-, rest_eq⟩, rfl⟩ := printed
  rw [← rest_eq]
  exact isField_append (isField_fmt_time stamp_eq)
    (isField_append (isField_of_all (by decide)) (isField_decimal pid))

theorem isField_job_id (accepted : idProblem job_id = none) : IsField job_id := by
  have named := Template.isName_of_idProblem accepted
  cases job_id with
  | nil => cases named
  | cons b rest =>
      rw [isName, Template.isNameWith, Bool.and_eq_true, List.all_eq_true] at named
      refine List.forall_mem_cons.mpr ⟨?_, named.2⟩
      rw [isNameByte, Bool.or_eq_true, Bool.or_eq_true]
      rcases Bool.or_eq_true_iff.mp named.1 with letter | underscore
      · exact Or.inl (Or.inl (Bool.or_eq_true_iff.mpr (Or.inl letter)))
      · exact Or.inl (Or.inr underscore)

end Fields

/-! ## A run id fits -/

section Fits
variable {n : Nat} {tm : Tm}

theorem decimal_length_le {n : Int} {k : Nat} (positive : 0 < k) (below : n.natAbs < 10 ^ k) :
    (decimal n).length ≤ k + 1 := by
  have digits : (decimalNat n.natAbs).length ≤ k :=
    (Numerals.numeral_length_le (by decide) positive).mpr below
  unfold decimal
  split_ifs
  · exact Nat.succ_le_succ digits
  · exact Nat.le_succ_of_le digits

theorem two_length_le (below : n < 100) : (two n).length ≤ 2 := by
  unfold two
  split_ifs with short
  · exact Nat.succ_le_succ ((Numerals.numeral_length_le (b := 10) (by decide) one_pos).mpr short)
  · exact (Numerals.numeral_length_le (b := 10) (by decide) two_pos).mpr below

theorem strftime_length_le {stamp : Bytes} (year : (tm.tm_year + 1900).natAbs < 10 ^ 10)
    (printed : strftime n tm = some stamp) : stamp.length ≤ 23 := by
  simp only [strftime, Option.ite_none_right_eq_some, Option.some.injEq] at printed
  have year_length := decimal_length_le (by decide) year
  have mon := two_length_le (n := tm.tm_mon + 1) (by omega)
  have mday := two_length_le (n := tm.tm_mday) (by omega)
  have hour := two_length_le (n := tm.tm_hour) (by omega)
  have min := two_length_le (n := tm.tm_min) (by omega)
  have sec := two_length_le (n := tm.tm_sec) (by omega)
  have t : (bytes "T").length = 1 := by decide
  have z : (bytes "Z").length = 1 := by decide
  rw [← printed.2]
  simp only [List.length_append, t, z]
  omega

/-- The caller's 64 bytes fit the run id of every clock and process. -/
theorem fmt_run_id_fits {gmtime_r : Int → Option Tm} {now pid : Int}
    (years : ∀ tm, gmtime_r now = some tm → (tm.tm_year + 1900).natAbs < 10 ^ 10)
    (time_t : now.natAbs ≤ 2 ^ 63) (pid_t : pid.natAbs ≤ 2 ^ 31) :
    (fmt_run_id gmtime_r 64 now pid).isSome = true := by
  have stamped : ∃ stamp, fmt_time gmtime_r 64 now = some stamp ∧ stamp.length ≤ 23 := by
    unfold fmt_time
    split
    · next stamp broken_down =>
        obtain ⟨tm, tm_eq, printed⟩ := Option.bind_eq_some_iff.mp broken_down
        exact ⟨stamp, rfl, strftime_length_le (years tm tm_eq) printed⟩
    · have seconds := decimal_length_le (n := now) (k := 19) (by decide) (by omega)
      exact ⟨decimal now, qwe_xfmt_eq_some.mpr ⟨by omega, rfl⟩, by omega⟩
  obtain ⟨stamp, stamp_eq, short⟩ := stamped
  have number := decimal_length_le (n := pid) (k := 10) (by decide) (by omega)
  have dash : (bytes "-").length = 1 := by decide
  have rest : qwe_xfmt (64 - stamp.length) (bytes "-" ++ decimal pid)
      = some (bytes "-" ++ decimal pid) :=
    qwe_xfmt_eq_some.mpr ⟨by rw [List.length_append, dash]; omega, rfl⟩
  rw [fmt_run_id, Option.bind_eq_bind, stamp_eq, Option.bind_some, rest]
  rfl

end Fits

/-! ## Two tokens -/

section Tokens
variable {run_id job_id other_run other_job text : Bytes} {cur other_cur : Nat}

theorem dot_not_mem (field : IsField text) : 46 ∉ text := fun inside =>
  (nameByte_plain (field 46 inside)).2.1 rfl

theorem step_token_eq_intercalate (run_id job_id : Bytes) (cur : Nat) :
    step_token run_id job_id cur = [46].intercalate [run_id, job_id, decimalNat cur] := by
  simp only [step_token, List.intercalate_cons_cons, List.intercalate_singleton,
    List.append_assoc]
  rfl

/-- A token splits into its fields. -/
theorem step_token_injective (run : IsField run_id) (job : IsField job_id)
    (other : IsField other_run) (otherJob : IsField other_job)
    (same : step_token run_id job_id cur = step_token other_run other_job other_cur) :
    run_id = other_run ∧ job_id = other_job ∧ cur = other_cur := by
  have dotless {r j : Bytes} (i : Nat) (r_field : IsField r) (j_field : IsField j) :
      ∀ field ∈ [r, j, decimalNat i], 46 ∉ field := by
    simp only [List.forall_mem_cons, List.not_mem_nil, false_implies, implies_true, and_true]
    exact ⟨dot_not_mem r_field, dot_not_mem j_field, dot_not_mem (isField_decimalNat i)⟩
  have fields := congrArg (List.splitOn 46) same
  rw [step_token_eq_intercalate, step_token_eq_intercalate,
    List.splitOn_intercalate 46 (dotless cur run job) (List.cons_ne_nil _ _),
    List.splitOn_intercalate 46 (dotless other_cur other otherJob) (List.cons_ne_nil _ _)] at fields
  injection fields with run_eq fields
  injection fields with job_eq fields
  injection fields with cur_eq
  exact ⟨run_eq, job_eq, Template.decimalNat_injective cur_eq⟩

/-- Two dots, whatever the fields are. -/
theorem count_assignment (run : IsField run_id) (job : IsField job_id) :
    (assignment (step_token run_id job_id cur)).count 46 = 2 := by
  simp only [assignment, step_token, List.count_append,
    List.count_eq_zero.mpr (dot_not_mem run), List.count_eq_zero.mpr (dot_not_mem job),
    List.count_eq_zero.mpr (dot_not_mem (isField_decimalNat cur))]
  decide

/-- The name and the dots are as harmless as the fields, but for what a dot matches. -/
theorem assignment_plain (run : IsField run_id) (job : IsField job_id) :
    ∀ b ∈ assignment (step_token run_id job_id cur), (b < 128 ∧ b ∉ Grep.special) ∧ b ≠ 0 := by
  have fixed : ((bytes "QWE_STEP=.").all fun b =>
      decide ((b < 128 ∧ b ∉ Grep.special) ∧ b ≠ 0)) = true := by decide
  have each {text : Bytes} (field : IsField text) :
      ∀ b ∈ text, (b < 128 ∧ b ∉ Grep.special) ∧ b ≠ 0 := fun b inside =>
    ⟨(nameByte_plain (field b inside)).1, (nameByte_plain (field b inside)).2.2⟩
  have name : ∀ b ∈ bytes "QWE_STEP=" ++ bytes ".", (b < 128 ∧ b ∉ Grep.special) ∧ b ≠ 0 :=
    fun b inside => of_decide_eq_true (List.all_eq_true.mp fixed b inside)
  rw [List.forall_mem_append] at name
  simp only [assignment, step_token, List.forall_mem_append]
  exact ⟨name.1, ⟨⟨⟨each run, name.2⟩, each job⟩, name.2⟩, each (isField_decimalNat cur)⟩

theorem simple_assignment (run : IsField run_id) (job : IsField job_id) :
    Grep.Simple (assignment (step_token run_id job_id cur)) := fun b inside =>
  (assignment_plain run job b inside).1

theorem nul_not_mem_assignment (run : IsField run_id) (job : IsField job_id) :
    0 ∉ assignment (step_token run_id job_id cur) := fun inside =>
  (assignment_plain run job 0 inside).2 rfl

/-- The pattern of a token matches the line of the same token, and no other token's; the fields
of a step are in its token. -/
theorem token_matches_own_line (made : IsRunId run_id) (accepted : idProblem job_id = none)
    (otherMade : IsRunId other_run) (otherAccepted : idProblem other_job = none) :
    Grep.grep_x (assignment (step_token run_id job_id cur))
        (assignment (step_token other_run other_job other_cur))
      = some (decide (step_token run_id job_id cur = step_token other_run other_job other_cur)) ∧
    ((run_id, job_id, cur) ≠ (other_run, other_job, other_cur) →
      step_token run_id job_id cur ≠ step_token other_run other_job other_cur) := by
  have run := isField_run_id made
  have job := isField_job_id accepted
  have other := isField_run_id otherMade
  have otherJob := isField_job_id otherAccepted
  refine ⟨?_, fun differ same => differ ?_⟩
  · have dots : (assignment (step_token run_id job_id cur)).count 46
        ≤ (assignment (step_token other_run other_job other_cur)).count 46 := by
      rw [count_assignment run job, count_assignment other otherJob]
    rw [Grep.grep_x_eq (simple_assignment run job) (nul_not_mem_assignment run job) dots]
    congr 1
    exact decide_eq_decide.mpr (List.append_right_inj _)
  · obtain ⟨rfl, rfl, rfl⟩ := step_token_injective run job other otherJob same
    rfl

theorem token_matches_own_line_twoRuns :
    let gmtime_r : Int → Option Tm := fun _ => some ⟨124, 0, 1, 0, 0, 0⟩
    let run := bytes "20240101T000000Z-17"
    let other := bytes "20240101T000000Z-18"
    fmt_run_id gmtime_r 64 1704067200 17 = some run ∧
    fmt_run_id gmtime_r 64 1704067200 18 = some other ∧
    idProblem (bytes "web") = none ∧
    Grep.grep_x (assignment (step_token run (bytes "web") 1))
      (assignment (step_token other (bytes "web") 1)) = some false := by
  intro gmtime_r run other
  have made : fmt_run_id gmtime_r 64 1704067200 17 = some run := by decide
  have otherMade : fmt_run_id gmtime_r 64 1704067200 18 = some other := by decide
  have accepted : idProblem (bytes "web") = none := by decide
  have differ : step_token run (bytes "web") 1 ≠ step_token other (bytes "web") 1 :=
    (token_matches_own_line ⟨_, _, _, _, made⟩ accepted ⟨_, _, _, _, otherMade⟩ accepted).2
      (by decide)
  refine ⟨made, otherMade, accepted, ?_⟩
  rw [(token_matches_own_line ⟨_, _, _, _, made⟩ accepted ⟨_, _, _, _, otherMade⟩ accepted).1,
    decide_eq_false differ]

/-- `KILLER` signals the processes of the step that it is for: of every process that has one
`QWE_STEP`, those where this is the token. -/
theorem signals_own_step {environ : Bytes} (made : IsRunId run_id)
    (accepted : idProblem job_id = none) (otherMade : IsRunId other_run)
    (otherAccepted : idProblem other_job = none)
    (owns : assignment (step_token other_run other_job other_cur) ∈ environ_lines environ)
    (only : ∀ line ∈ environ_lines environ, bytes "QWE_STEP=" <+: line →
      line = assignment (step_token other_run other_job other_cur)) :
    signals (step_token run_id job_id cur) environ
      = some (decide ((run_id, job_id, cur) = (other_run, other_job, other_cur))) := by
  have run := isField_run_id made
  have job := isField_job_id accepted
  have other := isField_run_id otherMade
  have otherJob := isField_job_id otherAccepted
  have simple : Grep.Simple (assignment (step_token run_id job_id cur)) :=
    simple_assignment run job
  have reads (line : Bytes) (inside : line ∈ environ_lines environ)
      (found : Grep.grep_x (assignment (step_token run_id job_id cur)) line = some true) :
      line = assignment (step_token run_id job_id cur) := by
    have own := only line inside (Grep.isPrefix_of_grep_x simple (by decide) found)
    have dots : (assignment (step_token run_id job_id cur)).count 46 ≤ line.count 46 := by
      rw [own, count_assignment run job, count_assignment other otherJob]
    rw [Grep.grep_x_eq simple (nul_not_mem_assignment run job) dots] at found
    exact (of_decide_eq_true (Option.some.inj found)).symm
  rw [signals, Grep.grep_qx_eq simple]
  congr 1
  refine decide_eq_decide.mpr ⟨fun ⟨line, inside, found⟩ => ?_, fun same => ?_⟩
  · have own := reads line inside found
    have tagged : bytes "QWE_STEP=" <+: line := ⟨step_token run_id job_id cur, own.symm⟩
    have same := List.append_cancel_left (own.symm.trans (only line inside tagged))
    obtain ⟨rfl, rfl, rfl⟩ := step_token_injective run job other otherJob same
    rfl
  · injection same with run_eq rest
    injection rest with job_eq cur_eq
    subst run_eq job_eq cur_eq
    refine ⟨_, owns, ?_⟩
    rw [Grep.grep_x_eq simple (nul_not_mem_assignment run job) (Nat.le_refl _), decide_eq_true rfl]

end Tokens

end Qwe.Token
