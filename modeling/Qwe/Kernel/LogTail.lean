import Qwe.Lib.Lines
import Qwe.Lib.Markdown
import Qwe.Lua.Value
import Qwe.Template.Expr

/-!
# The log tail of a summary

`log_tail` and `longest_backtick_run` of `src/kernel/summary.c`, and the fenced block around
the tail.  The run of backticks is counted in an `int`, and so is the length of the fence.
-/

set_option autoImplicit false

namespace Qwe.Report

open Qwe.Redact (Bytes)
open Qwe.Template (bytes)
open Qwe.Lua (cString)

def INT_MAX : Nat := 2 ^ 31 - 1

/-- `n + 1` as an `int`: `none` is the overflow, which has no defined result. -/
def increment (n : Nat) : Option Nat := if n < INT_MAX then some (n + 1) else none

/-- The loop of `longest_backtick_run` -/
def longestRun (longest cur : Nat) : Bytes → Option Nat
  | [] => some longest
  | c :: rest =>
      if c = 96 then do
        let cur ← increment cur
        longestRun (if cur > longest then cur else longest) cur rest
      else longestRun longest 0 rest

def longest_backtick_run (s : Bytes) : Option Nat := longestRun 0 0 s

/-! ## The tail -/

/-- The walk back of `log_tail`: `start`, from the `left` line boundaries still to be found. -/
def walkBack (log : Bytes) : (left start : Nat) → Nat
  | _, 0 => 0
  | 0, start => start
  | left + 1, start + 1 =>
      if log[start]? = some 10 then
        if left = 0 then start + 1 else walkBack log left start
      else walkBack log (left + 1) start

/-- The end of a log that has been read. -/
def tailOf (n : Nat) (log : Bytes) : Bytes :=
  let start := if log.getLast? = some 10 then log.length - 1 else log.length
  log.drop (walkBack log n start)

/-- `"%s/%s.log"` -/
def log_path (run_dir job_id : Bytes) : Bytes := run_dir ++ bytes "/" ++ job_id ++ bytes ".log"

/-- `log_tail`, of the files that can be read. -/
def log_tail (files : Bytes → Option Bytes) (run_dir job_id : Bytes) (n : Nat) : Option Bytes :=
  (files (log_path run_dir job_id)).map (tailOf n)

def LOG_TAIL_LINES : Nat := 20

/-- The block of `qwe_summary_render` around a tail, which it reads as a C string. -/
def tailBlock (tail : Bytes) : Option Bytes :=
  let tail := cString tail
  if tail = [] then some [] else do
    let longest ← longest_backtick_run tail
    let fence_len ← increment longest
    let fence := List.replicate (if fence_len < 3 then 3 else fence_len) 96
    some (bytes "<details><summary>log tail</summary>\n\n" ++ fence ++ [10] ++ tail ++
      (if tail.getLast? = some 10 then [] else [10]) ++ fence ++ bytes "\n\n</details>\n\n")

/-! ## The last lines -/

/-- The last `n` lines of a text, the last of them terminated as it is. -/
def lastLines (n : Nat) (page : Lines.Page UInt8) : Lines.Page UInt8 :=
  (page.1.rtake n, page.2)

section Tail
variable {log text more : Bytes} {n left : Nat}

theorem walkBack_le (log : Bytes) (left start : Nat) : walkBack log left start ≤ start := by
  fun_induction walkBack log left start with
  | case1 => exact Nat.le_refl 0
  | case2 => exact Nat.le_refl _
  | case3 => exact Nat.le_refl _
  | case4 left start _ _ inductionHypothesis => exact Nat.le_succ_of_le inductionHypothesis
  | case5 left start _ inductionHypothesis => exact Nat.le_succ_of_le inductionHypothesis

theorem splitOn_separator (text : Bytes) : (text ++ [10]).splitOn 10 = text.splitOn 10 ++ [[]] := by
  rw [List.splitOn_append_cons_self, List.splitOn_nil]

/-- A byte more in the last line. -/
theorem splitOn_concat {c : UInt8} (other : c ≠ 10) (text : Bytes) :
    ∃ init last, text.splitOn 10 = init ++ [last] ∧
      (text ++ [c]).splitOn 10 = init ++ [last ++ [c]] := by
  obtain ⟨init, last, cuts⟩ :=
    (List.eq_nil_or_concat' (text.splitOn 10)).resolve_left (List.splitOn_ne_nil 10 text)
  have free : ∀ line ∈ text.splitOn 10, 10 ∉ line := Lines.free_splitOn text
  have joined : [10].intercalate (init ++ [last]) = text := by
    rw [← cuts, List.intercalate_splitOn]
  have further : [10].intercalate (init ++ [last ++ [c]]) = text ++ [c] := by
    rw [← joined]
    by_cases single : init = []
    · rw [single]
      simp [List.intercalate]
    · rw [Lines.intercalate_concat single, Lines.intercalate_concat single, List.append_assoc,
        List.cons_append]
  refine ⟨init, last, cuts, ?_⟩
  rw [← further, List.splitOn_intercalate 10 ?_ (by simp)]
  intro line inside
  rw [cuts] at free
  rcases List.mem_append.mp inside with inside | inside
  · exact free line (List.mem_append_left _ inside)
  · rw [List.mem_singleton.mp inside, List.mem_append, List.mem_singleton, not_or]
    exact ⟨free last (List.mem_append_right _ (List.mem_singleton_self last)), other.symm⟩

/-- The walk back over the end of a text: what it leaves are the last lines. -/
theorem drop_walkBack (text more : Bytes) (left : Nat) :
    text.drop (walkBack (text ++ more) (left + 1) text.length) =
      [10].intercalate ((text.splitOn 10).rtake (left + 1)) := by
  induction text using List.reverseRecOn generalizing more left with
  | nil => simp [List.splitOn_nil, List.rtake, List.intercalate]
  | append_singleton text c inductionHypothesis =>
      have here : (text ++ [c] ++ more)[text.length]? = some c := by simp
      have shorter (left : Nat) : walkBack (text ++ [c] ++ more) left text.length ≤ text.length :=
        walkBack_le _ _ _
      have further (left : Nat) := inductionHypothesis ([c] ++ more) left
      simp only [← List.append_assoc] at further
      rw [List.length_append, List.length_singleton, walkBack, here]
      by_cases lf : c = 10
      · rw [lf, if_pos rfl, splitOn_separator, List.rtake_concat_succ]
        by_cases last : left = 0
        · rw [if_pos last, last, List.drop_eq_nil_of_le (by simp)]
          simp [List.intercalate]
        · obtain ⟨left, rfl⟩ := Nat.exists_eq_succ_of_ne_zero last
          rw [lf] at further shorter
          have some_line : (text.splitOn 10).rtake (left + 1) ≠ [] := by
            obtain ⟨init, line, cuts⟩ := (List.eq_nil_or_concat' (text.splitOn 10)).resolve_left
              (List.splitOn_ne_nil 10 text)
            rw [cuts, List.rtake_concat_succ]
            simp
          rw [if_neg last, List.drop_append_of_le_length (shorter _), further,
            Lines.intercalate_concat some_line]
      · obtain ⟨init, last, cuts, cut⟩ := splitOn_concat lf text
        rw [if_neg (fun same => lf (Option.some.inj same)),
          List.drop_append_of_le_length (shorter _), further, cuts, cut,
          List.rtake_concat_succ, List.rtake_concat_succ]
        by_cases single : init.rtake left = []
        · rw [single]
          simp [List.intercalate]
        · rw [Lines.intercalate_concat single, Lines.intercalate_concat single, List.append_assoc,
            List.cons_append]

theorem rtake_ne_nil {α : Type} {lines : List α} (nonempty : lines ≠ []) (n : Nat) :
    lines.rtake (n + 1) ≠ [] := by
  obtain ⟨init, line, rfl⟩ := (List.eq_nil_or_concat' lines).resolve_left nonempty
  rw [List.rtake_concat_succ]
  exact List.append_ne_nil_of_right_ne_nil _ (List.cons_ne_nil _ _)

/-- The tail of a log is its last lines. -/
theorem tailOf_eq (n : Nat) (log : Bytes) :
    tailOf (n + 1) log = Lines.write 10 (lastLines (n + 1) (Lines.read 10 log)) := by
  rw [tailOf, Lines.read]
  by_cases empty : log = []
  · rw [if_pos empty, empty, List.drop_nil, lastLines, List.rtake_nil]
    rfl
  rw [if_neg empty]
  by_cases ends : log.getLast? = some 10
  · obtain ⟨text, rfl⟩ := List.getLast?_eq_some_iff.mp ends
    have last := drop_walkBack text [10] n
    have within := walkBack_le (text ++ [10]) (n + 1) text.length
    have kept := rtake_ne_nil (List.splitOn_ne_nil 10 text) n
    rw [if_pos ends, if_pos ends, List.dropLast_concat, lastLines,
      Lines.write_terminated kept, ← last, List.length_append, List.length_singleton,
      Nat.add_sub_cancel, List.drop_append_of_le_length within]
  · have last := drop_walkBack log [] n
    rw [List.append_nil] at last
    rw [if_neg ends, if_neg ends, lastLines, Lines.write_unterminated, last]

theorem mem_of_mem_tailOf {b : UInt8} (inside : b ∈ tailOf n log) : b ∈ log :=
  List.mem_of_mem_drop inside

/-- A log of one line. -/
theorem lastLines_single (free : 10 ∉ log) (filled : log ≠ []) (n : Nat) :
    Lines.write 10 (lastLines (n + 1) (Lines.read 10 log)) = log := by
  have one : log.splitOn 10 = [log] := by
    have alone : ∀ line ∈ [log], 10 ∉ line := by simpa using free
    have cut := List.splitOn_intercalate 10 alone (List.cons_ne_nil _ _)
    rw [List.intercalate_singleton] at cut
    exact cut
  have open_ : log.getLast? ≠ some 10 := fun last => free (List.mem_of_getLast? last)
  rw [Lines.read, if_neg filled, if_neg open_, one, lastLines, Lines.write_unterminated]
  have all := List.rtake_concat_succ [] n log
  rw [List.nil_append, List.rtake_nil, List.nil_append] at all
  rw [all, List.intercalate_singleton]

end Tail

/-! ## The longest run -/

/-- The longest run without a bound. -/
def runFrom (longest cur : Nat) : Bytes → Nat
  | [] => longest
  | c :: rest =>
      if c = 96 then runFrom (max longest (cur + 1)) (cur + 1) rest
      else runFrom longest 0 rest

section Runs
variable {longest cur : Nat}

theorem replicate_cons_run {k : Nat} {rest : Bytes} :
    List.replicate (k + 1) 96 <+: 96 :: rest ↔ List.replicate k 96 <+: rest := by
  rw [List.replicate_succ, List.cons_prefix_cons]
  exact and_iff_right rfl

theorem replicate_run {n k : Nat} (fewer : n ≤ k) :
    List.replicate n (96 : UInt8) <+: List.replicate k 96 :=
  ⟨List.replicate (k - n) 96, by
    rw [List.replicate_append_replicate, Nat.add_sub_cancel' fewer]⟩

theorem le_runFrom_iff (n : Nat) (s : Bytes) (short : cur ≤ longest) :
    n ≤ runFrom longest cur s ↔
      n ≤ longest ∨ (∃ k, n ≤ cur + k ∧ List.replicate k 96 <+: s) ∨
        List.replicate n 96 <:+: s := by
  induction s generalizing longest cur with
  | nil =>
      rw [runFrom]
      constructor
      · exact Or.inl
      · rintro (known | ⟨k, reaches, run⟩ | run)
        · exact known
        · have none := List.prefix_nil.mp run
          rw [List.replicate_eq_nil_iff] at none
          omega
        · have none := List.infix_nil.mp run
          rw [List.replicate_eq_nil_iff] at none
          omega
  | cons c rest inductionHypothesis =>
      rw [runFrom]
      by_cases tick : c = 96
      · have step := inductionHypothesis (Nat.le_max_right longest (cur + 1))
        rw [if_pos tick, step, tick, List.infix_cons_iff]
        constructor
        · rintro (known | ⟨k, reaches, run⟩ | run)
          · rcases (by omega : n ≤ longest ∨ n ≤ cur + 1) with known | known
            · exact .inl known
            · exact .inr (.inl ⟨1, known, ⟨rest, rfl⟩⟩)
          · exact .inr (.inl ⟨k + 1, by omega, replicate_cons_run.mpr run⟩)
          · exact .inr (.inr (.inr run))
        · rintro (known | ⟨k, reaches, run⟩ | run | run)
          · exact .inl (by omega)
          · cases k with
            | zero => exact .inl (by omega)
            | succ k => exact .inr (.inl ⟨k, by omega, replicate_cons_run.mp run⟩)
          · cases n with
            | zero => exact .inl (Nat.zero_le _)
            | succ k => exact .inr (.inl ⟨k, by omega, replicate_cons_run.mp run⟩)
          · exact .inr (.inr run)
      · rw [if_neg tick, inductionHypothesis (Nat.zero_le _), List.infix_cons_iff]
        have none (k : Nat) (run : List.replicate k 96 <+: c :: rest) : k = 0 := by
          cases k with
          | zero => rfl
          | succ k =>
              rw [List.replicate_succ, List.cons_prefix_cons] at run
              exact absurd run.1.symm tick
        constructor
        · rintro (known | ⟨k, reaches, run⟩ | run)
          · exact .inl known
          · have shorter : List.replicate n 96 <+: rest :=
              (replicate_run (by omega)).trans run
            exact .inr (.inr (.inr shorter.isInfix))
          · exact .inr (.inr (.inr run))
        · rintro (known | ⟨k, reaches, run⟩ | run | run)
          · exact .inl known
          · have zero := none k run
            exact .inl (by omega)
          · have zero := none n run
            exact .inl (by omega)
          · exact .inr (.inr run)

theorem longest_le_runFrom (longest cur : Nat) (s : Bytes) : longest ≤ runFrom longest cur s := by
  induction s generalizing longest cur with
  | nil => exact Nat.le_refl longest
  | cons c rest inductionHypothesis =>
      rw [runFrom]
      split_ifs
      · exact (Nat.le_max_left _ _).trans (inductionHypothesis _ _)
      · exact inductionHypothesis _ _

/-- The count is right as long as the run can be counted. -/
theorem longestRun_eq (s : Bytes) {longest cur : Nat} (short : cur ≤ longest)
    (counted : longest ≤ INT_MAX) :
    longestRun longest cur s =
      if runFrom longest cur s ≤ INT_MAX then some (runFrom longest cur s) else none := by
  induction s generalizing longest cur with
  | nil => rw [longestRun, runFrom, if_pos counted]
  | cons c rest inductionHypothesis =>
      rw [longestRun, runFrom]
      by_cases tick : c = 96
      · rw [if_pos tick, if_pos tick, increment]
        by_cases room : cur < INT_MAX
        · have larger : (if cur + 1 > longest then cur + 1 else longest) =
              max longest (cur + 1) := by
            split_ifs <;> omega
          rw [if_pos room, Option.bind_eq_bind, Option.bind_some, larger,
            inductionHypothesis (Nat.le_max_right _ _) (by omega)]
        · have reached := longest_le_runFrom (max longest (cur + 1)) (cur + 1) rest
          rw [if_neg room, if_neg (by omega)]
          rfl
      · rw [if_neg tick, if_neg tick, inductionHypothesis (Nat.zero_le _) counted]

/-- The length of the longest run, where it has one that is shorter than `INT_MAX`. -/
theorem longest_backtick_run_spec (s : Bytes) :
    (∃ longest, longest_backtick_run s = some longest ∧ longest < INT_MAX ∧
        ∀ n, n ≤ longest ↔ List.replicate n 96 <:+: s) ∧
        ¬ List.replicate INT_MAX 96 <:+: s ∨
      (longest_backtick_run s).bind increment = none ∧ List.replicate INT_MAX 96 <:+: s := by
  have runs (n : Nat) : n ≤ runFrom 0 0 s ↔ List.replicate n 96 <:+: s := by
    rw [le_runFrom_iff n s (Nat.le_refl 0)]
    constructor
    · rintro (none | ⟨k, reaches, run⟩ | run)
      · rw [Nat.le_zero.mp none]
        exact List.nil_infix
      · exact ((replicate_run (by omega)).trans run).isInfix
      · exact run
    · exact fun run => .inr (.inr run)
  have counted := longestRun_eq s (Nat.le_refl 0) (Nat.zero_le INT_MAX)
  rw [longest_backtick_run, counted, ← runs INT_MAX]
  rcases Nat.lt_or_ge (runFrom 0 0 s) INT_MAX with fits | long
  · left
    refine ⟨⟨runFrom 0 0 s, if_pos (Nat.le_of_lt fits), fits, runs⟩, ?_⟩
    omega
  · right
    refine ⟨?_, long⟩
    split_ifs with exact_
    · rw [Option.bind_some, increment, if_neg (by omega)]
    · rfl

end Runs

/-! ## The block -/

/-- What a reader of the summary finds in the block: the lines of the tail, and behind them
what closes the details. -/
def BlockHolds (tail : Bytes) : Prop :=
  ∃ block, tailBlock tail = some block ∧
    (tail = [] ∧ block = [] ∨
      Markdown.fenced ((Markdown.lines block).drop 2) =
        some (Markdown.lines tail, [[], bytes "</details>", []]))

section Block
variable {tail fence : Bytes} {n : Nat}

/-- The tail with the LF that is written where it has none. -/
theorem lines_terminated (nonempty : tail ≠ []) (rest : Bytes) :
    Markdown.lines (tail ++ ((if tail.getLast? = some 10 then [] else [10]) ++ rest)) =
      Markdown.lines tail ++ Markdown.lines rest := by
  obtain ⟨front, c, rfl⟩ := (List.eq_nil_or_concat' tail).resolve_left nonempty
  rw [List.getLast?_concat]
  by_cases lf : c = 10
  · rw [lf, if_pos rfl, List.nil_append, List.append_assoc, List.singleton_append]
    exact Markdown.linesFrom_append [] false front rest
  · rw [if_neg fun same => lf (Option.some.inj same), List.singleton_append]
    have cut := Markdown.linesFrom_append [] false (front ++ [c]) rest
    rw [Markdown.linesFrom_terminated _ _ _ lf] at cut
    exact cut

theorem straight_replicate (n : Nat) : Markdown.Straight (List.replicate n 96) := by
  constructor
  · exact fun inside => absurd (List.eq_of_mem_replicate inside) (by decide)
  · exact fun inside => absurd (List.eq_of_mem_replicate inside) (by decide)

/-- The lines of a block with any fence. -/
theorem lines_block (nonempty : tail ≠ []) (n : Nat) :
    (Markdown.lines (bytes "<details><summary>log tail</summary>\n\n" ++ List.replicate n 96 ++
      [10] ++ tail ++ (if tail.getLast? = some 10 then [] else [10]) ++ List.replicate n 96 ++
      bytes "\n\n</details>\n\n")).drop 2 =
    List.replicate n 96 :: (Markdown.lines tail ++
      List.replicate n 96 :: [[], bytes "</details>", []]) := by
  have opening : bytes "<details><summary>log tail</summary>\n\n" =
      bytes "<details><summary>log tail</summary>" ++ 10 :: ([] ++ [10]) := by decide
  have closing : bytes "\n\n</details>\n\n" =
      10 :: ([] ++ 10 :: (bytes "</details>" ++ 10 :: ([] ++ 10 :: []))) := by decide
  have first : Markdown.Straight (bytes "<details><summary>log tail</summary>") :=
    ⟨by decide, by decide⟩
  have last : Markdown.Straight (bytes "</details>") := ⟨by decide, by decide⟩
  have empty : Markdown.Straight [] := ⟨List.not_mem_nil, List.not_mem_nil⟩
  have blank (rest : Bytes) : Markdown.lines (10 :: rest) = [] :: Markdown.lines rest :=
    Markdown.lines_straight empty rest
  have none : Markdown.lines [] = [] := rfl
  rw [opening, closing]
  simp only [List.append_assoc, List.cons_append, List.nil_append]
  rw [Markdown.lines_straight first, blank, Markdown.lines_straight (straight_replicate n),
    lines_terminated nonempty, Markdown.lines_straight (straight_replicate n), blank,
    Markdown.lines_straight last, blank, none]
  rfl

/-- No line of the tail closes a block whose fence is longer than every run. -/
theorem kept_of_longer {longest : Nat}
    (runs : ∀ n, n ≤ longest ↔ List.replicate n 96 <:+: tail) (longer : longest < n) :
    ∀ line ∈ Markdown.lines tail, Markdown.closes n line = false := by
  intro line inside
  rw [← Bool.not_eq_true]
  intro closes
  have run := (Markdown.infix_of_closes closes).trans (Markdown.infix_of_mem_linesFrom inside)
  rw [List.nil_append, ← runs] at run
  omega

theorem blockHolds_iff (free : 0 ∉ tail) :
    BlockHolds tail ↔ ¬ List.replicate INT_MAX 96 <:+: tail := by
  rw [BlockHolds, tailBlock, Lua.cString_eq_self free]
  by_cases empty : tail = []
  · rw [if_pos empty, empty, List.infix_nil, List.replicate_eq_nil_iff]
    refine iff_of_true ⟨[], rfl, .inl ⟨rfl, rfl⟩⟩ (by decide)
  rw [if_neg empty]
  obtain ⟨⟨longest, counted, fits, runs⟩, short⟩ | ⟨undefined, long⟩ :=
    longest_backtick_run_spec tail
  · refine iff_of_true ?_ short
    have length : increment longest = some (longest + 1) := if_pos fits
    simp only [counted, length, Option.bind_eq_bind, Option.bind_some, Option.some.injEq,
      exists_eq_left']
    right
    rw [lines_block empty, Markdown.fenced_between]
    · split_ifs <;> omega
    · exact kept_of_longer runs (by split_ifs <;> omega)
  · refine iff_of_false ?_ (not_not_intro long)
    rintro ⟨block, shown, -⟩
    rw [Option.bind_eq_bind, Option.bind_eq_some_iff] at shown
    obtain ⟨longest, counted, shown⟩ := shown
    rw [counted, Option.bind_some] at undefined
    rw [undefined] at shown
    exact Option.some_ne_none block shown.symm

end Block

/-- The tail that the summary takes of a log, and the block that it shows it in. -/
def ShowsTail (files : Bytes → Option Bytes) (run_dir job_id log : Bytes) : Prop :=
  ∃ tail, log_tail files run_dir job_id LOG_TAIL_LINES = some tail ∧
    tail = Lines.write 10 (lastLines LOG_TAIL_LINES (Lines.read 10 log)) ∧ BlockHolds tail

section Shown
variable (files : Bytes → Option Bytes) (run_dir job_id log : Bytes)

theorem showsTail_iff (stored : files (log_path run_dir job_id) = some log) (free : 0 ∉ log) :
    ShowsTail files run_dir job_id log ↔
      ¬ List.replicate INT_MAX 96 <:+:
        Lines.write 10 (lastLines LOG_TAIL_LINES (Lines.read 10 log)) := by
  have taken : log_tail files run_dir job_id LOG_TAIL_LINES = some (tailOf LOG_TAIL_LINES log) := by
    rw [log_tail, stored, Option.map_some]
  have same : tailOf LOG_TAIL_LINES log =
      Lines.write 10 (lastLines LOG_TAIL_LINES (Lines.read 10 log)) := tailOf_eq 19 log
  have within : 0 ∉ tailOf LOG_TAIL_LINES log := fun inside => free (mem_of_mem_tailOf inside)
  rw [← same, ← blockHolds_iff within, ShowsTail]
  constructor
  · rintro ⟨tail, found, -, holds⟩
    rw [taken, Option.some.injEq] at found
    rw [found]
    exact holds
  · exact fun holds => ⟨tailOf LOG_TAIL_LINES log, taken, same, holds⟩

/-- The tail is the last lines of the log, and none of them ends the block, exactly as long as
the last lines have no run of backticks that an `int` cannot outrun. -/
theorem log_tail_stays_inside (stored : files (log_path run_dir job_id) = some log)
    (free : 0 ∉ log) :
    ShowsTail files run_dir job_id log ↔
      ¬ List.replicate INT_MAX 96 <:+:
        Lines.write 10 (lastLines LOG_TAIL_LINES (Lines.read 10 log)) :=
  showsTail_iff files run_dir job_id log stored free

theorem log_tail_stays_inside_fence :
    ShowsTail (fun _ => some (bytes "a\n```\nb")) (bytes "run") (bytes "j")
      (bytes "a\n```\nb") := by
  refine (log_tail_stays_inside (fun _ => some (bytes "a\n```\nb")) (bytes "run") (bytes "j")
    (bytes "a\n```\nb") rfl (by decide)).mpr fun run => ?_
  have short := run.length_le
  rw [List.length_replicate] at short
  revert short
  decide

end Shown

/-- A line of `INT_MAX` backticks: there is no `int` for its fence. -/
theorem backticks_outrun_fence :
    ¬ ShowsTail (fun _ => some (List.replicate INT_MAX 96)) (bytes "run") (bytes "j")
      (List.replicate INT_MAX 96) := by
  have free : 10 ∉ List.replicate INT_MAX (96 : UInt8) := (straight_replicate INT_MAX).1
  have nulFree : 0 ∉ List.replicate INT_MAX (96 : UInt8) :=
    fun inside => absurd (List.eq_of_mem_replicate inside) (by decide)
  have filled : List.replicate INT_MAX (96 : UInt8) ≠ [] := by
    rw [ne_eq, List.replicate_eq_nil_iff]
    decide
  obtain ⟨log, same⟩ : ∃ log, log = List.replicate INT_MAX (96 : UInt8) := ⟨_, rfl⟩
  rw [← same] at free nulFree filled ⊢
  rw [showsTail_iff (fun _ => some log) (bytes "run") (bytes "j") log rfl nulFree,
    LOG_TAIL_LINES, lastLines_single free filled 19, not_not, same]

end Qwe.Report
