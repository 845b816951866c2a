import Mathlib.Data.List.Basic

/-!
# Texts as lines

A text is read as its lines and whether the last one has its separator; the empty text has
no line.  Writing puts the lines together again.  Every text comes back; of the pages only
those come back whose last line, where it has no separator, is not empty.
-/

set_option autoImplicit false

namespace Qwe.Lines

variable {α : Type}

/-- The lines, and whether the last is terminated. -/
abbrev Page (α : Type) := List (List α) × Bool

def write (sep : α) (page : Page α) : List α :=
  [sep].intercalate page.1 ++ if page.1 ≠ [] ∧ page.2 = true then [sep] else []

section Joining
variable {sep : α} {lines : List (List α)}

/-- A separator behind the last line. -/
theorem intercalate_terminated (nonempty : lines ≠ []) :
    [sep].intercalate lines ++ [sep] = lines.flatMap (· ++ [sep]) := by
  obtain ⟨line, rest, rfl⟩ := List.exists_cons_of_ne_nil nonempty
  induction rest generalizing line with
  | nil => simp [List.intercalate]
  | cons next rest inductionHypothesis =>
      have further := inductionHypothesis next (List.cons_ne_nil _ _)
      rw [List.intercalate_cons_cons, List.append_assoc, List.append_assoc, further]
      simp only [List.flatMap_cons, List.append_assoc]

theorem intercalate_concat (nonempty : lines ≠ []) (line : List α) :
    [sep].intercalate (lines ++ [line]) = [sep].intercalate lines ++ (sep :: line) := by
  obtain ⟨first, rest, rfl⟩ := List.exists_cons_of_ne_nil nonempty
  induction rest generalizing first with
  | nil => simp [List.intercalate]
  | cons next rest inductionHypothesis =>
      have further := inductionHypothesis next (List.cons_ne_nil _ _)
      rw [List.cons_append] at further
      rw [List.cons_append, List.cons_append, List.intercalate_cons_cons, further,
        List.intercalate_cons_cons]
      simp only [List.append_assoc]

theorem write_terminated (nonempty : lines ≠ []) :
    write sep (lines, true) = [sep].intercalate lines ++ [sep] := by
  rw [write, if_pos ⟨nonempty, rfl⟩]

theorem write_unterminated (lines : List (List α)) :
    write sep (lines, false) = [sep].intercalate lines := by
  rw [write, if_neg, List.append_nil]
  rintro ⟨-, terminated⟩
  exact Bool.false_ne_true terminated

end Joining

section Reading
variable [DecidableEq α] {sep : α} {text : List α} {lines others : List (List α)}
  {terminated : Bool}

def read (sep : α) (text : List α) : Page α :=
  if text = [] then ([], true)
  else if text.getLast? = some sep then (text.dropLast.splitOn sep, true)
  else (text.splitOn sep, false)

/-- What reading gives back of a page: an empty last line without its separator is lost, and
the line before it then has one. -/
def settle (page : Page α) : Page α :=
  if page.1 = [] then ([], true)
  else if page.2 = false ∧ page.1.getLast? = some [] then (page.1.dropLast, true)
  else page

theorem free_splitOn (text : List α) : ∀ line ∈ text.splitOn sep, sep ∉ line := by
  induction text with
  | nil =>
      intro line present
      rw [List.splitOn_nil, List.mem_singleton] at present
      rw [present]
      exact List.not_mem_nil
  | cons a text inductionHypothesis =>
      intro line present
      rw [List.splitOn_cons_eq_if_modifyHead] at present
      by_cases cut : (a == sep) = true
      · rw [if_pos cut, List.mem_cons] at present
        rcases present with rfl | present
        · exact List.not_mem_nil
        · exact inductionHypothesis line present
      · rw [if_neg cut] at present
        obtain ⟨first, rest, cuts⟩ :=
          List.exists_cons_of_ne_nil (List.splitOn_ne_nil sep text)
        rw [cuts, List.forall_mem_cons] at inductionHypothesis
        rw [cuts, List.modifyHead_cons, List.mem_cons] at present
        rcases present with rfl | present
        · rw [List.mem_cons, not_or]
          exact ⟨fun same => cut (beq_iff_eq.mpr same.symm), inductionHypothesis.1⟩
        · exact inductionHypothesis.2 line present

/-- Reading a text and writing its page gives the text. -/
theorem write_read (text : List α) : write sep (read sep text) = text := by
  unfold read
  by_cases empty : text = []
  · rw [if_pos empty, empty]
    rfl
  rw [if_neg empty]
  by_cases ends : text.getLast? = some sep
  · rw [if_pos ends, write_terminated (List.splitOn_ne_nil _ _), List.intercalate_splitOn]
    exact List.dropLast_append_getLast? sep ends
  · rw [if_neg ends, write_unterminated, List.intercalate_splitOn]

theorem read_free (text : List α) : ∀ line ∈ (read sep text).1, sep ∉ line := by
  unfold read
  split_ifs
  · exact fun _ present => absurd present List.not_mem_nil
  · exact free_splitOn _
  · exact free_splitOn _

/-- A text ends in its last line, which has no separator. -/
theorem read_last (read_eq : read sep text = (lines, false)) : lines.getLast? ≠ some [] := by
  intro last
  have written : write sep (read sep text) = text := write_read text
  rw [read_eq, write_unterminated] at written
  obtain ⟨init, rfl⟩ := List.getLast?_eq_some_iff.mp last
  unfold read at read_eq
  split_ifs at read_eq with empty ends
  · exact Bool.false_ne_true (congrArg Prod.snd read_eq).symm
  · exact Bool.false_ne_true (congrArg Prod.snd read_eq).symm
  · by_cases single : init = []
    · rw [single] at written
      exact empty written.symm
    · rw [intercalate_concat single] at written
      apply ends
      rw [← written, List.getLast?_append]
      rfl

/-- Writing a page and reading the text settles the page. -/
theorem read_write (free : ∀ line ∈ lines, sep ∉ line) (terminated : Bool) :
    read sep (write sep (lines, terminated)) = settle (lines, terminated) := by
  by_cases none : lines = []
  · rw [none]
    rfl
  unfold settle
  rw [if_neg none]
  cases terminated with
  | true =>
      rw [write_terminated none, read, if_neg (by simp), if_pos (by simp), List.dropLast_concat,
        List.splitOn_intercalate sep free none, if_neg]
      rintro ⟨open_, -⟩
      exact Bool.false_ne_true open_.symm
  | false =>
      rw [write_unterminated]
      obtain ⟨init, line, rfl⟩ := (List.eq_nil_or_concat' lines).resolve_left none
      by_cases blank : line = []
      · rw [if_pos ⟨rfl, by rw [List.getLast?_concat, blank]⟩, List.dropLast_concat, blank]
        by_cases single : init = []
        · rw [single]
          rfl
        · have inside : ∀ line ∈ init, sep ∉ line :=
            fun line present => free line (List.mem_append_left _ present)
          rw [intercalate_concat single, read, if_neg (by simp), if_pos (by simp),
            List.dropLast_concat, List.splitOn_intercalate sep inside single]
      · have cut := List.splitOn_intercalate sep free none
        generalize [sep].intercalate (init ++ [line]) = text at cut
        have begun : text ≠ [] := by
          rintro rfl
          have last := congrArg List.getLast? cut
          rw [List.splitOn_nil, List.getLast?_concat] at last
          exact blank (Option.some.inj last).symm
        have ends : text.getLast? ≠ some sep := by
          intro ends
          obtain ⟨front, rfl⟩ := List.getLast?_eq_some_iff.mp ends
          have last := congrArg List.getLast? cut
          rw [List.splitOn_append_cons_self, List.splitOn_nil, List.getLast?_concat,
            List.getLast?_concat] at last
          exact blank (Option.some.inj last).symm
        rw [read, if_neg begun, if_neg ends, cut, if_neg]
        rintro ⟨-, last⟩
        rw [List.getLast?_concat] at last
        exact blank (Option.some.inj last)

theorem mem_of_mem_settle {page : Page α} {line : List α} (inside : line ∈ (settle page).1) :
    line ∈ page.1 := by
  unfold settle at inside
  split_ifs at inside
  · exact absurd inside List.not_mem_nil
  · exact List.dropLast_subset _ inside
  · exact inside

/-- Two pages of one kind are written alike only if they are the same. -/
theorem write_injective (free : ∀ line ∈ lines, sep ∉ line) (other : ∀ line ∈ others, sep ∉ line)
    (nonempty : lines ≠ []) (filled : others ≠ [])
    (same : write sep (lines, terminated) = write sep (others, terminated)) : lines = others := by
  have joined : [sep].intercalate lines = [sep].intercalate others := by
    cases terminated with
    | true =>
        rw [write_terminated nonempty, write_terminated filled] at same
        exact List.append_cancel_right same
    | false =>
        rw [write_unterminated, write_unterminated] at same
        exact same
  rw [← List.splitOn_intercalate sep free nonempty, joined,
    List.splitOn_intercalate sep other filled]

end Reading

end Qwe.Lines
