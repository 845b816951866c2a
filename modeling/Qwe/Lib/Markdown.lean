import Mathlib.Algebra.Ring.Parity
import Mathlib.Data.List.DropRight

/-!
# Markdown

Lines, the cells of a table's row and fenced blocks, as GitHub-flavoured Markdown and
CommonMark have them.
-/

set_option autoImplicit false

namespace Qwe.Markdown

abbrev Text := List UInt8

/-! ## Lines -/

/-- LF, CR and CRLF end a line.  `returned` says that a CR stands right before. -/
def linesFrom (line : Text) (returned : Bool) : Text → List Text
  | [] => if line = [] then [] else [line]
  | c :: rest =>
      if c = 13 then line :: linesFrom [] true rest
      else if c = 10 then
        if returned then linesFrom [] false rest else line :: linesFrom [] false rest
      else linesFrom (line ++ [c]) false rest

def lines (text : Text) : List Text := linesFrom [] false text

section Lines
variable {line front text rest : Text} {returned : Bool} {c : UInt8}

/-- A text without line endings. -/
def Straight (text : Text) : Prop := 10 ∉ text ∧ 13 ∉ text

theorem straight_append : Straight (front ++ rest) ↔ Straight front ∧ Straight rest := by
  unfold Straight
  simp only [List.mem_append, not_or]
  exact and_and_and_comm

theorem linesFrom_straight (straight : Straight front) (line rest : Text) :
    linesFrom line false (front ++ rest) = linesFrom (line ++ front) false rest := by
  induction front generalizing line with
  | nil => rw [List.nil_append, List.append_nil]
  | cons c front inductionHypothesis =>
      simp only [Straight, List.mem_cons, not_or] at straight
      rw [List.cons_append, linesFrom, if_neg (Ne.symm straight.2.1),
        if_neg (Ne.symm straight.1.1), inductionHypothesis ⟨straight.1.2, straight.2.2⟩,
        List.append_assoc, List.singleton_append]

/-- A line and what follows its LF. -/
theorem lines_straight (straight : Straight line) (rest : Text) :
    lines (line ++ 10 :: rest) = line :: lines rest := by
  rw [lines, linesFrom_straight straight, List.nil_append, linesFrom,
    if_neg (by decide), if_pos rfl]
  rfl

theorem linesFrom_ne_nil_of_begun (begun : line ≠ []) (text : Text) :
    linesFrom line false text ≠ [] := by
  induction text generalizing line with
  | nil =>
      rw [linesFrom, if_neg begun]
      exact List.cons_ne_nil _ _
  | cons c text inductionHypothesis =>
      rw [linesFrom]
      simp only [Bool.false_eq_true, if_false]
      split_ifs
      · exact List.cons_ne_nil _ _
      · exact List.cons_ne_nil _ _
      · exact inductionHypothesis (List.append_ne_nil_of_right_ne_nil _ (List.cons_ne_nil _ _))

/-- Where something other than LF is still to come, a line is still to come. -/
theorem linesFrom_ne_nil (inside : c ∈ text) (other : c ≠ 10) :
    linesFrom line returned text ≠ [] := by
  induction text generalizing line returned with
  | nil => exact absurd inside List.not_mem_nil
  | cons d text inductionHypothesis =>
      rw [linesFrom]
      by_cases lf : d = 10
      · have later : c ∈ text :=
          (List.mem_cons.mp inside).resolve_left fun same => other (same ▸ lf)
        split_ifs
        · exact List.cons_ne_nil _ _
        · exact inductionHypothesis later
        · exact List.cons_ne_nil _ _
      · rw [if_neg lf]
        split_ifs
        · exact List.cons_ne_nil _ _
        · exact linesFrom_ne_nil_of_begun
            (List.append_ne_nil_of_right_ne_nil _ (List.cons_ne_nil _ _)) _

/-- A CR ends a line. -/
theorem two_le_linesFrom (returns : 13 ∈ front) (inside : c ∈ rest) (other : c ≠ 10) :
    2 ≤ (linesFrom line returned (front ++ rest)).length := by
  induction front generalizing line returned with
  | nil => exact absurd returns List.not_mem_nil
  | cons d front inductionHypothesis =>
      rw [List.cons_append, linesFrom]
      by_cases cr : d = 13
      · have further : linesFrom [] true (front ++ rest) ≠ [] :=
          linesFrom_ne_nil (List.mem_append_right _ inside) other
        have positive := List.length_pos_iff.mpr further
        rw [if_pos cr, List.length_cons]
        omega
      · have later : 13 ∈ front := (List.mem_cons.mp returns).resolve_left fun same => cr same.symm
        rw [if_neg cr]
        split_ifs
        · exact inductionHypothesis later
        · rw [List.length_cons]
          exact Nat.le_succ_of_le (inductionHypothesis later)
        · exact inductionHypothesis later

/-- A text that ends in a pipe and LF, and has no LF before, is one line unless there is a CR. -/
theorem lines_piped (free : 10 ∉ front) :
    (∃ line, lines (front ++ [124, 10]) = [line] ∧ line = front ++ [124]) ∧ 13 ∉ front ∨
      (∀ line, lines (front ++ [124, 10]) ≠ [line]) ∧ 13 ∈ front := by
  by_cases returns : 13 ∈ front
  · right
    refine ⟨fun line one => ?_, returns⟩
    have two : 2 ≤ (lines (front ++ [124, 10])).length :=
      two_le_linesFrom returns List.mem_cons_self (by decide)
    rw [one, List.length_singleton] at two
    omega
  · left
    have pipe : Straight [124] := ⟨by decide, by decide⟩
    have straight : Straight (front ++ [124]) := straight_append.mpr ⟨⟨free, returns⟩, pipe⟩
    refine ⟨⟨front ++ [124], ?_, rfl⟩, returns⟩
    have whole := lines_straight straight []
    rw [List.append_assoc] at whole
    exact whole

/-- What stands behind an LF is read apart from what stands before. -/
theorem linesFrom_append (line : Text) (returned : Bool) (front rest : Text) :
    linesFrom line returned (front ++ 10 :: rest) =
      linesFrom line returned (front ++ [10]) ++ lines rest := by
  induction front generalizing line returned with
  | nil => cases returned <;> rfl
  | cons c front inductionHypothesis =>
      simp only [List.cons_append, linesFrom, inductionHypothesis]
      split_ifs
      · rfl
      · rfl
      · rfl
      · rfl

/-- An LF behind the last line changes nothing. -/
theorem linesFrom_terminated (line : Text) (returned : Bool) (front : Text) (last : c ≠ 10) :
    linesFrom line returned (front ++ [c] ++ [10]) = linesFrom line returned (front ++ [c]) := by
  induction front generalizing line returned with
  | nil =>
      simp only [List.nil_append, List.singleton_append, linesFrom, if_neg last]
      simp
  | cons d front inductionHypothesis =>
      simp only [List.cons_append, linesFrom, inductionHypothesis]

theorem infix_of_mem_linesFrom {found : Text} (inside : found ∈ linesFrom line returned text) :
    found <:+: line ++ text := by
  induction text generalizing line returned with
  | nil =>
      rw [linesFrom] at inside
      split_ifs at inside
      · exact absurd inside List.not_mem_nil
      · have same : found = line := List.mem_singleton.mp inside
        exact same ▸ (List.prefix_append found []).isInfix
  | cons c text inductionHypothesis =>
      have here : line <:+: line ++ c :: text := (List.prefix_append line _).isInfix
      have later (later : found <:+: [] ++ text) : found <:+: line ++ c :: text :=
        later.trans ((List.suffix_cons c text).trans (List.suffix_append line _)).isInfix
      rw [linesFrom] at inside
      split_ifs at inside
      · rcases List.mem_cons.mp inside with rfl | inside
        · exact here
        · exact later (inductionHypothesis inside)
      · exact later (inductionHypothesis inside)
      · rcases List.mem_cons.mp inside with rfl | inside
        · exact here
        · exact later (inductionHypothesis inside)
      · have further := inductionHypothesis inside
        rw [List.append_assoc, List.singleton_append] at further
        exact further

end Lines

/-! ## Cells -/

/-- Whether an odd number of backslashes stands behind `c`. -/
def behind (odd : Bool) (c : UInt8) : Bool := c == 92 && !odd

/-- Whether an odd number of backslashes stands at the end. -/
def parity (odd : Bool) (text : Text) : Bool := text.foldl behind odd

/-- The pieces between the pipes that separate, those behind an even number of backslashes. -/
def piecesFrom (piece : Text) (odd : Bool) : Text → List Text
  | [] => [piece]
  | c :: rest =>
      if c = 124 ∧ odd = false then piece :: piecesFrom [] false rest
      else piecesFrom (piece ++ [c]) (behind odd c) rest

def pieces (line : Text) : List Text := piecesFrom [] false line

def isBlank (text : Text) : Bool := text.all fun c => c == 32 || c == 9

/-- The cells of a row: the pipes at its two ends are optional. -/
def rowCells (line : Text) : List Text :=
  let inner := if (pieces line).head?.all isBlank then (pieces line).tail else pieces line
  if inner.getLast?.all isBlank then inner.dropLast else inner

/-- The pipes that separate. -/
def separators (odd : Bool) : Text → Nat
  | [] => 0
  | c :: rest => (if c = 124 ∧ odd = false then 1 else 0) + separators (behind odd c) rest

section Cells
variable {piece front text rest : Text} {odd : Bool}

@[simp]
theorem parity_nil (odd : Bool) : parity odd [] = odd := rfl

@[simp]
theorem parity_cons (odd : Bool) (c : UInt8) (rest : Text) :
    parity odd (c :: rest) = parity (behind odd c) rest := rfl

theorem parity_append (odd : Bool) (front rest : Text) :
    parity odd (front ++ rest) = parity (parity odd front) rest := List.foldl_append

/-- The rule in the words of the standard. -/
theorem parity_eq_true_iff (text : Text) :
    parity false text = true ↔ Odd (text.rtakeWhile (· == 92)).length := by
  induction text using List.reverseRecOn with
  | nil => decide
  | append_singleton text c inductionHypothesis =>
      rw [parity_append, parity_cons, parity_nil, behind]
      by_cases backslash : c = 92
      · rw [List.rtakeWhile_concat_pos (· == 92) text c (beq_iff_eq.mpr backslash),
          List.length_append, List.length_singleton, Nat.odd_add_one, ← inductionHypothesis, backslash]
        simp
      · have other : ¬ (c == 92) = true := fun same => backslash (beq_iff_eq.mp same)
        rw [List.rtakeWhile_concat_neg (· == 92) text c other]
        simp [backslash]

theorem separators_append (odd : Bool) (front rest : Text) :
    separators odd (front ++ rest) = separators odd front + separators (parity odd front) rest := by
  induction front generalizing odd with
  | nil => exact (Nat.zero_add _).symm
  | cons c front inductionHypothesis =>
      rw [List.cons_append, separators, separators, inductionHypothesis, parity_cons, Nat.add_assoc]

theorem piecesFrom_length (piece : Text) (odd : Bool) (text : Text) :
    (piecesFrom piece odd text).length = separators odd text + 1 := by
  induction text generalizing piece odd with
  | nil => rfl
  | cons c text inductionHypothesis =>
      rw [piecesFrom, separators]
      by_cases separates : c = 124 ∧ odd = false
      · have even : behind odd c = false := by rw [behind, separates.1]; rfl
        rw [if_pos separates, if_pos separates, List.length_cons, inductionHypothesis, even]
        omega
      · rw [if_neg separates, if_neg separates, inductionHypothesis]
        omega

/-- The last piece, behind a pipe at the end. -/
theorem piecesFrom_piped (piece : Text) (odd : Bool) (text : Text)
    (even : parity odd text = false) :
    (piecesFrom piece odd (text ++ [124])).getLast? = some [] := by
  induction text generalizing piece odd with
  | nil =>
      rw [parity_nil] at even
      rw [List.nil_append, piecesFrom, if_pos ⟨rfl, even⟩]
      rfl
  | cons c text inductionHypothesis =>
      rw [parity_cons] at even
      rw [List.cons_append, piecesFrom]
      by_cases separates : c = 124 ∧ odd = false
      · have reset : behind odd c = false := by rw [behind, separates.1]; rfl
        rw [reset] at even
        rw [if_pos separates, List.getLast?_cons, inductionHypothesis [] false even]
        rfl
      · rw [if_neg separates]
        exact inductionHypothesis _ _ even

/-- A row between two outer pipes has one cell more than there are pipes inside. -/
theorem rowCells_piped (text : Text) (even : parity false text = false) :
    (rowCells (124 :: (text ++ [124]))).length = separators false text + 1 := by
  have begins : pieces (124 :: (text ++ [124])) = [] :: piecesFrom [] false (text ++ [124]) := by
    rw [pieces, piecesFrom, if_pos ⟨rfl, rfl⟩]
  have blank : isBlank [] = true := rfl
  have last := piecesFrom_piped [] false text even
  rw [rowCells, begins]
  simp only [List.head?_cons, Option.all_some, blank, if_true, List.tail_cons, last,
    List.length_dropLast, piecesFrom_length, separators_append, even]
  rfl

/-- A row as it is written, with a pipe at both of its ends. -/
def row (cells : List Text) : Text := 124 :: cells.flatMap fun cell => 32 :: (cell ++ [32, 124])

/-- A row stands in one line and has `n` cells. -/
def RowHas (n : Nat) (text : Text) : Prop :=
  ∃ line, lines text = [line] ∧ (rowCells line).length = n

theorem separators_of_free (free : 124 ∉ text) (odd : Bool) : separators odd text = 0 := by
  induction text generalizing odd with
  | nil => rfl
  | cons c text inductionHypothesis =>
      rw [List.mem_cons, not_or] at free
      rw [separators, if_neg fun both => free.1 both.1.symm, inductionHypothesis free.2]

theorem parity_spaced (odd : Bool) (text : Text) : parity odd (text ++ [32]) = false := by
  rw [parity_append]
  rfl

/-- The cells as they stand behind the first pipe. -/
theorem separators_cells (cells : List Text) (odd : Bool) :
    separators odd (cells.flatMap fun cell => 32 :: (cell ++ [32, 124])) =
      cells.length + (cells.map (separators false)).sum := by
  induction cells generalizing odd with
  | nil => rfl
  | cons cell cells inductionHypothesis =>
      have space (odd : Bool) (text : Text) : separators odd (32 :: text) = separators false text := by
        cases odd <;> exact Nat.zero_add _
      have pipe (odd : Bool) : separators odd [32, 124] = 1 := by
        cases odd <;> rfl
      rw [List.flatMap_cons, separators_append, inductionHypothesis, space, separators_append, pipe,
        List.map_cons, List.sum_cons, List.length_cons]
      omega

/-- The last pipe of a row, and what stands in front of it. -/
theorem row_concat (cells : List Text) (last : Text) :
    ∃ inner, row (cells ++ [last]) = 124 :: (inner ++ [124]) ∧ parity false inner = false ∧
      separators false inner + 1 =
        (cells ++ [last]).length + ((cells ++ [last]).map (separators false)).sum := by
  refine ⟨cells.flatMap (fun cell => 32 :: (cell ++ [32, 124])) ++ 32 :: last ++ [32], ?_, ?_, ?_⟩
  · simp [row]
  · exact parity_spaced _ _
  · have whole : (cells ++ [last]).flatMap (fun cell => 32 :: (cell ++ [32, 124])) =
        cells.flatMap (fun cell => 32 :: (cell ++ [32, 124])) ++ 32 :: last ++ [32] ++ [124] := by
      simp
    rw [← separators_cells (cells ++ [last]) false, whole, separators_append _ _ [124],
      parity_spaced]
    rfl

theorem mem_row {c : UInt8} (pipe : c ≠ 124) (space : c ≠ 32) (cells : List Text) :
    c ∈ row cells ↔ ∃ cell ∈ cells, c ∈ cell := by
  simp [row, pipe, space]

/-- A row keeps its shape exactly when no cell has a pipe that separates or a CR. -/
theorem rowHas_iff {cells : List Text} (filled : cells ≠ []) (free : ∀ cell ∈ cells, 10 ∉ cell) :
    RowHas cells.length (row cells ++ [10]) ↔
      ∀ cell ∈ cells, separators false cell = 0 ∧ 13 ∉ cell := by
  obtain ⟨init, last, rfl⟩ := (List.eq_nil_or_concat' cells).resolve_left filled
  obtain ⟨inner, written, even, counted⟩ := row_concat init last
  have inside (c : UInt8) (pipe : c ≠ 124) (space : c ≠ 32) :
      c ∈ 124 :: inner ↔ ∃ cell ∈ init ++ [last], c ∈ cell := by
    rw [← mem_row pipe space, written]
    simp [pipe]
  have lfFree : 10 ∉ 124 :: inner := by
    rw [inside 10 (by decide) (by decide)]
    rintro ⟨cell, present, lf⟩
    exact free cell present lf
  have ends : row (init ++ [last]) ++ [10] = 124 :: inner ++ [124, 10] := by
    rw [written]
    simp
  have none : ((init ++ [last]).map (separators false)).sum = 0 ↔
      ∀ cell ∈ init ++ [last], separators false cell = 0 := by
    rw [List.sum_eq_zero_iff_forall_eq_nat, List.forall_mem_map]
  rw [RowHas, ends]
  rcases lines_piped lfFree with ⟨⟨line, one, same⟩, straight⟩ | ⟨broken, returns⟩
  · have cells : (rowCells line).length =
        (init ++ [last]).length + ((init ++ [last]).map (separators false)).sum := by
      rw [same, List.cons_append, rowCells_piped inner even, counted]
    rw [inside 13 (by decide) (by decide)] at straight
    constructor
    · rintro ⟨other, read, count⟩
      rw [one, List.singleton_inj] at read
      rw [← read, cells] at count
      exact fun cell present =>
        ⟨none.mp (by omega) cell present, fun cr => straight ⟨cell, present, cr⟩⟩
    · intro shaped
      have zero := none.mpr fun cell present => (shaped cell present).1
      exact ⟨line, one, by omega⟩
  · refine iff_of_false ?_ ?_
    · rintro ⟨line, one, -⟩
      exact broken line one
    · rw [inside 13 (by decide) (by decide)] at returns
      obtain ⟨cell, present, cr⟩ := returns
      exact fun shaped => (shaped cell present).2 cr

end Cells

/-! ## Fenced blocks -/

/-- The spaces at the front. -/
def indent (line : Text) : Nat := (line.takeWhile (· == 32)).length

/-- The backticks behind the spaces at the front. -/
def ticks (line : Text) : Nat := ((line.dropWhile (· == 32)).takeWhile (· == 96)).length

/-- What stands behind these. -/
def info (line : Text) : Text := (line.dropWhile (· == 32)).dropWhile (· == 96)

/-- The length of the fence that a line opens a block with. -/
def opens (line : Text) : Option Nat :=
  if indent line ≤ 3 ∧ 3 ≤ ticks line ∧ 96 ∉ info line then some (ticks line) else none

/-- Whether a line closes a block whose fence has length `n`. -/
def closes (n : Nat) (line : Text) : Bool :=
  indent line ≤ 3 && n ≤ ticks line && isBlank (info line)

/-- A line of a block whose fence is indented by `k`. -/
def undent : Nat → Text → Text
  | k + 1, 32 :: rest => undent k rest
  | _, line => line

/-- The lines up to the closing fence, and those behind it. -/
def body (n : Nat) : List Text → List Text × List Text
  | [] => ([], [])
  | line :: rest =>
      if closes n line then ([], rest) else (line :: (body n rest).1, (body n rest).2)

/-- The contents of the block that the first line opens, and the lines behind the block. -/
def fenced : List Text → Option (List Text × List Text)
  | [] => none
  | line :: rest =>
      (opens line).map fun n => ((body n rest).1.map (undent (indent line)), (body n rest).2)

section Fenced
variable {n : Nat} {text : Text} {inner outer : List Text}

@[simp]
theorem undent_zero (line : Text) : undent 0 line = line := by
  cases line <;> rfl

theorem body_append (kept : ∀ line ∈ inner, closes n line = false) (outer : List Text) :
    body n (inner ++ outer) = (inner ++ (body n outer).1, (body n outer).2) := by
  induction inner with
  | nil => rfl
  | cons line inner inductionHypothesis =>
      rw [List.forall_mem_cons] at kept
      rw [List.cons_append, body, kept.1, inductionHypothesis kept.2]
      rfl

theorem ticks_replicate (n : Nat) : ticks (List.replicate n 96) = n := by
  cases n with
  | zero => rfl
  | succ n =>
      have first : List.dropWhile (· == 32) (List.replicate (n + 1) (96 : UInt8)) =
          List.replicate (n + 1) 96 := rfl
      rw [ticks, first, List.takeWhile_replicate]
      simp

theorem indent_replicate (n : Nat) : indent (List.replicate n 96) = 0 := by
  cases n <;> rfl

theorem info_replicate (n : Nat) : info (List.replicate n 96) = [] := by
  cases n with
  | zero => rfl
  | succ n =>
      have first : List.dropWhile (· == 32) (List.replicate (n + 1) (96 : UInt8)) =
          List.replicate (n + 1) 96 := rfl
      rw [info, first, List.dropWhile_replicate]
      simp

/-- The lines between two fences of one length are the contents, where none of them closes the
block. -/
theorem fenced_between (long : 3 ≤ n) (kept : ∀ line ∈ inner, closes n line = false)
    (outer : List Text) :
    fenced (List.replicate n 96 :: (inner ++ List.replicate n 96 :: outer)) =
      some (inner, outer) := by
  have opened : opens (List.replicate n 96) = some n := by
    rw [opens, if_pos, ticks_replicate]
    rw [indent_replicate, ticks_replicate, info_replicate]
    exact ⟨Nat.zero_le 3, long, List.not_mem_nil⟩
  have closed : closes n (List.replicate n 96) = true := by
    rw [closes, indent_replicate, ticks_replicate, info_replicate]
    simp [isBlank]
  have ended : body n (List.replicate n 96 :: outer) = ([], outer) := by
    rw [body, if_pos closed]
  have same : undent 0 = id := funext undent_zero
  rw [fenced, opened, Option.map_some, body_append kept, ended, indent_replicate, List.append_nil,
    same, List.map_id]

/-- A line that closes a block of length `n` has a run of `n` backticks. -/
theorem infix_of_closes {line : Text} (closed : closes n line = true) :
    List.replicate n 96 <:+: line := by
  rw [closes, Bool.and_eq_true, Bool.and_eq_true, decide_eq_true_iff, decide_eq_true_iff] at closed
  have run : (line.dropWhile (· == 32)).takeWhile (· == 96) = List.replicate (ticks line) 96 := by
    rw [List.eq_replicate_iff]
    refine ⟨rfl, fun b inside => ?_⟩
    have tick : (b == 96) = true := List.mem_takeWhile_imp (p := (· == 96)) inside
    exact beq_iff_eq.mp tick
  have inner : List.replicate n 96 <:+: List.replicate (ticks line) (96 : UInt8) :=
    ⟨[], List.replicate (ticks line - n) 96, by
      rw [List.nil_append, List.replicate_append_replicate, Nat.add_sub_cancel' closed.1.2]⟩
  rw [← run] at inner
  exact inner.trans ((List.takeWhile_prefix _).isInfix.trans (List.dropWhile_suffix _).isInfix)

end Fenced

end Qwe.Markdown
