import Qwe.Kernel.LogTail
import Qwe.Kernel.Report

/-!
# The summary of a run

`src/kernel/summary.c`: the report in Markdown, and the shape of its tables.  The writes
succeed.
-/

set_option autoImplicit false

namespace Qwe.Report

open Qwe.Redact (Bytes)
open Qwe.Template (bytes decimal decimalNat)

/-! ## The report -/

def CELL_MAX : Nat := 200

def marker (outcome : Bytes) : Bytes :=
  if outcome = bytes "success" then [0xE2, 0x9C, 0x85] ++ bytes " success"
  else if outcome = bytes "failed" then [0xE2, 0x9D, 0x8C] ++ bytes " failed"
  else if outcome = bytes "skipped" then [0xE2, 0x8F, 0xAD, 0xEF, 0xB8, 0x8F] ++ bytes " skipped"
  else if outcome = bytes "cancelled" then
    [0xE2, 0x8F, 0xB9, 0xEF, 0xB8, 0x8F] ++ bytes " cancelled"
  else outcome

def put_ms (ms : Int) : Bytes := if ms ≥ 0 then decimal ms else []

def changed_cell (s : StepResult) : Bytes :=
  if s.outcome ≠ bytes "success" then []
  else if s.changed then bytes "changed" else bytes "unchanged"

/-- A byte in the loop of `escape_cell`. -/
def escapeByte (c : UInt8) : Bytes := if c = 124 then [92, 124] else if c = 10 then [32] else [c]

def escape_cell (s : Bytes) : Bytes :=
  let out := s.flatMap escapeByte
  if out.length > CELL_MAX then out.take CELL_MAX ++ [0xE2, 0x80, 0xA6] else out

def put_cell (s : Option Bytes) : Bytes := escape_cell (s.getD [])

/-- The row of a job in `qwe_summary_render`. -/
def jobRow (j : JobResult) : Bytes :=
  bytes "| " ++ put_cell (some j.id) ++ bytes " | " ++ marker j.outcome ++ bytes " | " ++
    put_cell (some (j.reason.getD [])) ++ bytes " | " ++ put_ms j.duration_ms ++ bytes " |\n"

def label (s : StepResult) : Bytes :=
  match s.id, s.name with
  | some id, _ => id
  | none, some name => name
  | none, none => []

/-- The row of the step with index `k`. -/
def stepRow (k : Nat) (s : StepResult) : Bytes :=
  bytes "| " ++ decimalNat (k + 1) ++ bytes " | " ++ put_cell (some (label s)) ++ bytes " | " ++
    put_cell (some (s.plugin.getD (bytes "run"))) ++ bytes " | " ++ marker s.outcome ++
    bytes " | " ++ changed_cell s ++ bytes " | " ++ put_cell (some (s.reason.getD [])) ++
    bytes " | " ++ put_ms s.duration_ms ++ bytes " |\n"

def stepRows (j : JobResult) : List Bytes := j.steps.mapIdx stepRow

def hasFailure (j : JobResult) : Bool :=
  j.steps.any fun s => s.outcome = bytes "failed" ∨ s.outcome = bytes "cancelled"

/-- The steps of a job, and the tail of its log where one of them failed. -/
def jobSection (files : Bytes → Option Bytes) (run_dir : Option Bytes) (j : JobResult) :
    Option Bytes :=
  if j.steps = [] then some [] else do
    let table := bytes "#### " ++ put_cell (some j.id) ++ bytes "\n\n" ++
      bytes "| # | id | plugin | outcome | changed | reason | duration (ms) |\n" ++
      bytes "| --- | --- | --- | --- | --- | --- | --- |\n" ++ (stepRows j).flatten ++ [10]
    let tail := if hasFailure j then run_dir.bind fun dir => log_tail files dir j.id LOG_TAIL_LINES
      else none
    let block ← tailBlock (tail.getD [])
    some (table ++ block)

/-- `qwe_summary_render`: `none` where the length of a fence overflows. -/
def qwe_summary_render (files : Bytes → Option Bytes) (run_dir : Option Bytes)
    (workflow_file overall_outcome : Bytes) (run_duration_ms : Int) (jobs : List JobResult) :
    Option Bytes := do
  let sections ← jobs.mapM (jobSection files run_dir)
  some (bytes "### " ++ workflow_file ++ bytes ": " ++ marker overall_outcome ++ bytes " (" ++
    put_ms run_duration_ms ++ bytes " ms)\n\n" ++
    bytes "| job | outcome | reason | duration (ms) |\n" ++ bytes "| --- | --- | --- | --- |\n" ++
    (jobs.map jobRow).flatten ++ [10] ++ sections.flatten)

/-! ## Texts in cells -/

/-- The bytes that a text takes up in a cell: a pipe takes two. -/
def width (text : Bytes) : Nat := text.length + text.count 124

/-- As far as a text is shown, it has no CR, and no pipe right behind an odd number of
backslashes. -/
def Tame (text : Bytes) : Prop :=
  ∀ front c rest, text = front ++ c :: rest → width (front ++ [c]) ≤ CELL_MAX →
    c ≠ 13 ∧ (c = 124 → ¬ Odd (front.rtakeWhile (· == 92)).length)

/-- The same in any context: `room` bytes are left, and `odd` backslashes stand in front. -/
def TameFrom (room : Nat) (odd : Bool) (text : Bytes) : Prop :=
  ∀ front c rest, text = front ++ c :: rest → width (front ++ [c]) ≤ room →
    c ≠ 13 ∧ (c = 124 → Markdown.parity odd front = false)

section Cells
variable {c : UInt8} {text front : Bytes} {room : Nat} {odd : Bool}

theorem tame_iff (text : Bytes) : Tame text ↔ TameFrom CELL_MAX false text := by
  simp only [Tame, TameFrom, ← Markdown.parity_eq_true_iff, Bool.not_eq_true]

theorem width_cons (c : UInt8) (text : Bytes) :
    width (c :: text) = (escapeByte c).length + width text := by
  rw [width, width, List.length_cons, List.count_cons, escapeByte]
  by_cases pipe : c = 124
  · rw [if_pos pipe, pipe]
    simp
    omega
  · rw [if_neg pipe]
    split_ifs <;> simp_all <;> omega

theorem tameFrom_cons (room : Nat) (odd : Bool) (c : UInt8) (text : Bytes) :
    TameFrom room odd (c :: text) ↔
      ((escapeByte c).length ≤ room → (c ≠ 13 ∧ (c = 124 → odd = false)) ∧
        TameFrom (room - (escapeByte c).length) (Markdown.behind odd c) text) := by
  have single : width [c] = (escapeByte c).length := width_cons c []
  constructor
  · intro tame fits
    refine ⟨tame [] c text rfl (le_of_eq_of_le single fits), ?_⟩
    rintro front d rest rfl within
    have longer : width (c :: front ++ [d]) ≤ room := by
      rw [List.cons_append, width_cons]
      omega
    exact tame (c :: front) d rest rfl longer
  · rintro tame front d rest same within
    cases front with
    | nil =>
        obtain ⟨rfl, rfl⟩ := List.cons.inj same
        exact (tame (le_of_eq_of_le single.symm within)).1
    | cons b front =>
        obtain ⟨rfl, rfl⟩ := List.cons.inj same
        rw [List.cons_append, width_cons] at within
        exact (tame (by omega)).2 front d rest rfl (by omega)

/-- Only a pipe behind an odd number of backslashes comes out as one that separates. -/
theorem separators_escapeByte (odd : Bool) (c : UInt8) :
    Markdown.separators odd (escapeByte c) = if c = 124 ∧ odd = true then 1 else 0 := by
  unfold escapeByte
  by_cases pipe : c = 124
  · rw [if_pos pipe, pipe]
    cases odd <;> rfl
  · have apart (odd' : Bool) : ¬ (c = 124 ∧ odd = odd') := fun both => pipe both.1
    rw [if_neg pipe, if_neg (apart true)]
    split_ifs
    · rfl
    · rw [Markdown.separators, if_neg (apart false)]
      rfl

theorem parity_escapeByte (odd : Bool) (c : UInt8) :
    Markdown.parity odd (escapeByte c) = Markdown.behind odd c := by
  unfold escapeByte
  split_ifs with pipe lf
  · rw [pipe]
    cases odd <;> rfl
  · rw [lf]
    rfl
  · rfl

theorem mem_escapeByte (c : UInt8) : 13 ∈ escapeByte c ↔ c = 13 := by
  unfold escapeByte
  split_ifs with pipe lf
  · rw [pipe]
    decide
  · rw [lf]
    decide
  · rw [List.mem_singleton, eq_comm]

/-- A byte that is cut in the middle leaves nothing or a backslash. -/
theorem take_escapeByte {room : Nat} {c : UInt8} (short : room < (escapeByte c).length) :
    (escapeByte c).take room = [] ∨ (escapeByte c).take room = [92] := by
  cases room with
  | zero => exact .inl rfl
  | succ room =>
      unfold escapeByte at short ⊢
      split_ifs at short ⊢ with pipe lf
      · right
        have one : room = 0 := by simp only [List.length_cons, List.length_nil] at short; omega
        rw [one]
        rfl
      · simp at short
      · simp at short

theorem take_escaped (room : Nat) (odd : Bool) (text : Bytes) :
    Markdown.separators odd ((text.flatMap escapeByte).take room) = 0 ∧
        13 ∉ (text.flatMap escapeByte).take room ↔ TameFrom room odd text := by
  induction text generalizing room odd with
  | nil =>
      rw [List.flatMap_nil, List.take_nil]
      refine iff_of_true ⟨rfl, List.not_mem_nil⟩ ?_
      rintro front c rest same
      simp at same
  | cons c text inductionHypothesis =>
      rw [List.flatMap_cons, List.take_append, tameFrom_cons]
      rcases Nat.lt_or_ge room (escapeByte c).length with short | fits
      · have none : room - (escapeByte c).length = 0 := by omega
        rw [none, List.take_zero, List.append_nil]
        refine iff_of_true ?_ fun fits => absurd fits (by omega)
        rcases take_escapeByte short with cut | cut
        · rw [cut]
          exact ⟨rfl, List.not_mem_nil⟩
        · rw [cut]
          exact ⟨by cases odd <;> rfl, by decide⟩
      · have rest := inductionHypothesis (room - (escapeByte c).length) (Markdown.behind odd c)
        rw [List.take_of_length_le fits, Markdown.separators_append, parity_escapeByte,
          separators_escapeByte, List.mem_append, mem_escapeByte, not_or, ← rest,
          Nat.add_eq_zero_iff]
        have separates : (if c = 124 ∧ odd = true then 1 else 0) = 0 ↔ (c = 124 → odd = false) := by
          cases odd <;> simp
        rw [separates]
        tauto

/-- A cell has no pipe that separates and no CR exactly when its text is tame. -/
theorem escape_cell_iff (text : Bytes) :
    Markdown.separators false (escape_cell text) = 0 ∧ 13 ∉ escape_cell text ↔ Tame text := by
  rw [tame_iff, ← take_escaped, escape_cell]
  rcases Nat.lt_or_ge CELL_MAX (text.flatMap escapeByte).length with long | fits
  · have ellipsis (odd : Bool) : Markdown.separators odd [0xE2, 0x80, 0xA6] = 0 := by
      cases odd <;> rfl
    have other : 13 ∉ [(0xE2 : UInt8), 0x80, 0xA6] := by decide
    rw [if_pos long, Markdown.separators_append, ellipsis, Nat.add_zero, List.mem_append, not_or]
    exact and_congr_right fun _ => and_iff_left other
  · rw [if_neg (by omega), List.take_of_length_le fits]

theorem lf_not_mem_escape_cell (text : Bytes) : 10 ∉ escape_cell text := by
  have escaped : 10 ∉ text.flatMap escapeByte := by
    intro inside
    obtain ⟨c, -, inside⟩ := List.mem_flatMap.mp inside
    unfold escapeByte at inside
    split_ifs at inside with pipe lf
    · revert inside
      decide
    · revert inside
      decide
    · exact lf (List.mem_singleton.mp inside).symm
  rw [escape_cell]
  split_ifs
  · rw [List.mem_append, not_or]
    exact ⟨fun inside => escaped (List.mem_of_mem_take inside), by decide⟩
  · exact escaped

end Cells

/-! ## Rows -/

/-- A text that stands in a cell as it is. -/
def Plain (text : Bytes) : Prop := 10 ∉ text ∧ 13 ∉ text ∧ 124 ∉ text

instance (text : Bytes) : Decidable (Plain text) :=
  inferInstanceAs (Decidable (10 ∉ text ∧ 13 ∉ text ∧ 124 ∉ text))

/-- What a cell has to be like. -/
def Shaped (cell : Bytes) : Prop := Markdown.separators false cell = 0 ∧ 13 ∉ cell

section Rows
variable {text outcome : Bytes} {j : JobResult} {s : StepResult}

theorem Plain.shaped (plain : Plain text) : Shaped text :=
  ⟨Markdown.separators_of_free plain.2.2 false, plain.2.1⟩

theorem plain_marker (known : outcome ∈ outcomes) : Plain (marker outcome) := by
  revert outcome
  decide

theorem plain_decimalNat (n : Nat) : Plain (decimalNat n) := by
  have digit (c : UInt8) (other : c.toNat < 48 ∨ 58 ≤ c.toNat) : c ∉ decimalNat n := by
    intro inside
    have between := Template.digit_of_mem_decimalNat inside
    omega
  exact ⟨digit 10 (.inl (by decide)), digit 13 (.inl (by decide)), digit 124 (.inr (by decide))⟩

theorem plain_put_ms (ms : Int) : Plain (put_ms ms) := by
  unfold put_ms
  split_ifs with shown
  · rw [Template.decimal, if_neg (by omega)]
    exact plain_decimalNat _
  · decide

theorem plain_changed_cell (s : StepResult) : Plain (changed_cell s) := by
  unfold changed_cell
  split_ifs
  · decide
  · decide
  · decide

theorem jobRow_eq (j : JobResult) :
    jobRow j = Markdown.row [escape_cell j.id, marker j.outcome, escape_cell (j.reason.getD []),
      put_ms j.duration_ms] ++ [10] := by
  have first : bytes "| " = [124, 32] := by decide
  have between : bytes " | " = [32, 124, 32] := by decide
  have last : bytes " |\n" = [32, 124, 10] := by decide
  simp [jobRow, Markdown.row, put_cell, first, between, last]

theorem stepRow_eq (k : Nat) (s : StepResult) :
    stepRow k s = Markdown.row [decimalNat (k + 1), escape_cell (label s),
      escape_cell (s.plugin.getD (bytes "run")), marker s.outcome, changed_cell s,
      escape_cell (s.reason.getD []), put_ms s.duration_ms] ++ [10] := by
  have first : bytes "| " = [124, 32] := by decide
  have between : bytes " | " = [32, 124, 32] := by decide
  have last : bytes " |\n" = [32, 124, 10] := by decide
  simp [stepRow, Markdown.row, put_cell, first, between, last]

theorem jobRow_iff (known : j.outcome ∈ outcomes) :
    Markdown.RowHas 4 (jobRow j) ↔ Tame j.id ∧ Tame (j.reason.getD []) := by
  rw [jobRow_eq]
  refine (Markdown.rowHas_iff (by simp) ?_).trans ?_
  · simp only [List.forall_mem_cons, lf_not_mem_escape_cell, (plain_marker known).1,
      (plain_put_ms j.duration_ms).1, not_false_eq_true, true_and]
    exact fun _ none => absurd none List.not_mem_nil
  · have outcome : Shaped (marker j.outcome) := (plain_marker known).shaped
    have duration : Shaped (put_ms j.duration_ms) := (plain_put_ms j.duration_ms).shaped
    simp only [List.forall_mem_cons, escape_cell_iff, List.not_mem_nil, false_implies,
      implies_true, and_true]
    exact ⟨fun cells => ⟨cells.1, cells.2.2.1⟩,
      fun texts => ⟨texts.1, outcome, texts.2, duration⟩⟩

theorem stepRow_iff (known : s.outcome ∈ outcomes) (k : Nat) :
    Markdown.RowHas 7 (stepRow k s) ↔
      Tame (label s) ∧ Tame (s.plugin.getD (bytes "run")) ∧ Tame (s.reason.getD []) := by
  rw [stepRow_eq]
  refine (Markdown.rowHas_iff (by simp) ?_).trans ?_
  · simp only [List.forall_mem_cons, lf_not_mem_escape_cell, (plain_decimalNat (k + 1)).1,
      (plain_marker known).1, (plain_changed_cell s).1, (plain_put_ms s.duration_ms).1,
      not_false_eq_true, true_and]
    exact fun _ none => absurd none List.not_mem_nil
  · have number : Shaped (decimalNat (k + 1)) := (plain_decimalNat (k + 1)).shaped
    have outcome : Shaped (marker s.outcome) := (plain_marker known).shaped
    have changed : Shaped (changed_cell s) := (plain_changed_cell s).shaped
    have duration : Shaped (put_ms s.duration_ms) := (plain_put_ms s.duration_ms).shaped
    simp only [List.forall_mem_cons, escape_cell_iff, List.not_mem_nil, false_implies,
      implies_true, and_true]
    exact ⟨fun cells => ⟨cells.2.1, cells.2.2.1, cells.2.2.2.2.2.1⟩,
      fun texts => ⟨number, texts.1, texts.2.1, outcome, changed, texts.2.2, duration⟩⟩

end Rows

/-- The texts of a job and its steps that stand in the cells of their rows. -/
def cellTexts (j : JobResult) : List Bytes :=
  [j.id, j.reason.getD []] ++
    j.steps.flatMap fun s => [label s, s.plugin.getD (bytes "run"), s.reason.getD []]

/-- Every row of the tables is one line and has a cell for every column. -/
def KeepsShape (jobs : List JobResult) : Prop :=
  ∀ j ∈ jobs, Markdown.RowHas 4 (jobRow j) ∧ ∀ row ∈ stepRows j, Markdown.RowHas 7 row

theorem stepRows_iff {j : JobResult} (known : ∀ s ∈ j.steps, s.outcome ∈ outcomes) :
    (∀ row ∈ stepRows j, Markdown.RowHas 7 row) ↔
      ∀ s ∈ j.steps, Tame (label s) ∧ Tame (s.plugin.getD (bytes "run")) ∧
        Tame (s.reason.getD []) := by
  constructor
  · intro shaped s inside
    obtain ⟨k, bound, rfl⟩ := List.getElem_of_mem inside
    exact (stepRow_iff (known _ inside) k).mp
      (shaped _ (List.mem_mapIdx.mpr ⟨k, bound, rfl⟩))
  · intro tame row inside
    obtain ⟨k, bound, rfl⟩ := List.mem_mapIdx.mp inside
    have present : j.steps[k] ∈ j.steps := List.getElem_mem bound
    exact (stepRow_iff (known _ present) k).mpr (tame _ present)

theorem keepsShape_iff {jobs : List JobResult}
    (known : ∀ j ∈ jobs, j.outcome ∈ outcomes ∧ ∀ s ∈ j.steps, s.outcome ∈ outcomes) :
    KeepsShape jobs ↔ ∀ j ∈ jobs, ∀ text ∈ cellTexts j, Tame text := by
  refine forall₂_congr fun j present => ?_
  rw [jobRow_iff (known j present).1, stepRows_iff (known j present).2, cellTexts,
    List.forall_mem_append, List.forall_mem_flatMap]
  simp only [List.forall_mem_cons, List.not_mem_nil, false_implies, implies_true, and_true]

/-- The tables keep their shape exactly when the texts in them are tame. -/
theorem summary_rows_keep_shape {jobs : List JobResult}
    (known : ∀ j ∈ jobs, j.outcome ∈ outcomes ∧ ∀ s ∈ j.steps, s.outcome ∈ outcomes) :
    KeepsShape jobs ↔ ∀ j ∈ jobs, ∀ text ∈ cellTexts j, Tame text :=
  keepsShape_iff known

/-- A job with one step. -/
def namedStep (name : String) : JobResult where
  id := bytes "build"
  outcome := bytes "success"
  reason := none
  detail := none
  started := 1
  ended := 2
  duration_ms := 1000
  dropped_bytes := 0
  steps := [{
    id := none
    outcome := bytes "success"
    reason := none
    changed := true
    outputs_json := none
    started := 1
    ended := 2
    duration_ms := 1000
    name := some (bytes name)
    plugin := none }]

theorem summary_rows_keep_shape_piped :
    KeepsShape [namedStep "a|b\nc"] ↔
      ∀ j ∈ [namedStep "a|b\nc"], ∀ text ∈ cellTexts j, Tame text :=
  summary_rows_keep_shape (by decide)

/-- A backslash in front of a pipe takes the escape away from it. -/
theorem backslash_splits_row : ¬ KeepsShape [namedStep "a\\|b"] := by
  intro shaped
  have tame := (keepsShape_iff (by decide)).mp shaped _ (List.mem_singleton_self _)
    (bytes "a\\|b") (by decide)
  have pipe := (tame (bytes "a\\") 124 (bytes "b") (by decide) (by decide)).2 rfl
  exact pipe (by decide)

/-! ## The whole summary -/

/-- What the summary has of one job behind the first table: the rows of its steps, and the
block around the tail of its log, which is empty where no step failed. -/
inductive SectionOf (files : Bytes → Option Bytes) (run_dir : Option Bytes) (j : JobResult) :
    Bytes → Prop where
  | none_ (idle : j.steps = []) : SectionOf files run_dir j []
  | rows (tail block : Bytes) (stepped : j.steps ≠ [])
      (failed : ∀ dir, hasFailure j = true → run_dir = some dir →
        tail = (log_tail files dir j.id LOG_TAIL_LINES).getD [])
      (calm : hasFailure j = false ∨ run_dir = none → tail = [])
      (shown : tailBlock tail = some block) :
      SectionOf files run_dir j (bytes "#### " ++ put_cell (some j.id) ++ bytes "\n\n" ++
        bytes "| # | id | plugin | outcome | changed | reason | duration (ms) |\n" ++
        bytes "| --- | --- | --- | --- | --- | --- | --- |\n" ++ (stepRows j).flatten ++ [10] ++ block)

section Render
variable {files : Bytes → Option Bytes} {run_dir : Option Bytes} {j : JobResult}

theorem sectionOf_jobSection {text : Bytes} (made : jobSection files run_dir j = some text) :
    SectionOf files run_dir j text := by
  unfold jobSection at made
  split at made
  · cases made
    exact .none_ ‹_›
  · rename_i stepped
    obtain ⟨block, shown, made⟩ := Option.bind_eq_some_iff.mp made
    cases made
    refine .rows _ block stepped ?_ ?_ shown
    · rintro dir failed rfl
      rw [if_pos failed]
      rfl
    · rintro (calm | rfl)
      · rw [calm]
        rfl
      · split <;> rfl

theorem sectionsOf_mapM {jobs : List JobResult} {sections : List Bytes}
    (made : jobs.mapM (jobSection files run_dir) = some sections) :
    List.Forall₂ (SectionOf files run_dir) jobs sections := by
  induction jobs generalizing sections with
  | nil =>
      cases made
      exact .nil
  | cons j jobs inductionHypothesis =>
      rw [List.mapM_cons] at made
      obtain ⟨text, first, made⟩ := Option.bind_eq_some_iff.mp made
      obtain ⟨rest, later, made⟩ := Option.bind_eq_some_iff.mp made
      cases made
      exact .cons (sectionOf_jobSection first) (inductionHypothesis later)

/-- The summary is its heading, the rows of the jobs, and for each job with steps the rows of
these and the block around the tail of its log: the rows and the blocks that the laws above
and those of the log tail are about. -/
theorem qwe_summary_render_shows {workflow_file overall_outcome : Bytes} {run_duration_ms : Int}
    {jobs : List JobResult} {text : Bytes}
    (rendered : qwe_summary_render files run_dir workflow_file overall_outcome run_duration_ms
      jobs = some text) :
    ∃ heading sections, text = heading ++ (jobs.map jobRow).flatten ++ [10] ++ sections.flatten ∧
      List.Forall₂ (SectionOf files run_dir) jobs sections := by
  obtain ⟨sections, made, same⟩ := Option.bind_eq_some_iff.mp rendered
  cases same
  exact ⟨_, sections, rfl, sectionsOf_mapM made⟩

end Render

end Qwe.Report
