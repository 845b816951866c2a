import Qwe.Files.Backend
import Qwe.Lib.Lines

/-!
# `file.line`

The step plugin `plugins/builtin/file.line/plugin.lua`: it edits one line of a
file.  The edit reads the content as lines, and writing and reading lines is
the general matter of `Lines`; the last section says what an edit leaves alone.
-/

set_option autoImplicit false

namespace Qwe.Files.Line

open Qwe.Redact (Bytes)
open Qwe.Template (bytes quote)
open Qwe.Patterns (Pattern match_ gmatch)

inductive State where
  | present
  | absent
deriving DecidableEq, Repr

/-- `with:`, as the plugin's schema admits it. -/
structure With where
  path : Bytes
  line : Bytes
  state : Option State
  regexp : Option Pattern
deriving DecidableEq, Repr

/-! ## The edit -/

/-- `(.-)\n` -/
def lineItems : List Patterns.Item := [.start, .lazy .any, .stop, .one (.byte 10)]

/-- `split_lines` -/
def split_lines (content : Bytes) : List Bytes × Bool :=
  if content = [] then ([], true)
  else
    let trailing := content.getLast? == some 10
    let body := if trailing then content.dropLast else content
    ((gmatch lineItems (body ++ [10])).map (·.text 0), trailing)

/-- `join_lines` -/
def join_lines (lines : List Bytes) (trailing : Bool) : Bytes :=
  let content := [10].intercalate lines
  if lines.length > 0 ∧ trailing = true then content ++ [10] else content

/-- `line_matches` -/
def line_matches (line : Bytes) (with_ : With) : Bool :=
  match with_.regexp with
  | some regexp => (match_ regexp line).isSome
  | none => line == with_.line

/-- `last_match`, from 0 -/
def last_match (lines : List Bytes) (with_ : With) : Option Nat :=
  lines.zipIdx.foldl (fun last (line, i) => if line_matches line with_ then some i else last) none

/-- `edited` -/
def edited (content : Bytes) (with_ : With) : Bytes × Bool :=
  let (lines, trailing) := split_lines content
  if with_.state = some .absent then
    let kept := lines.filter fun line => !line_matches line with_
    let removed := lines.any fun line => line_matches line with_
    if !removed then (content, false) else (join_lines kept trailing, true)
  else
    match last_match lines with_ with
    | none => (join_lines (lines ++ [with_.line]) true, true)
    | some last =>
        if lines[last]? = some with_.line then (content, false)
        else (join_lines (lines.set last with_.line) trailing, true)

/-! ## The step -/

variable {σ : Type}

/-- `read_file` -/
def read_file (backend : Backend σ) (with_ : With) (path : Bytes) : Action σ (Option Bytes) := do
  let stat ← backend (bytes "stat -c %a -- " ++ path) none
  if stat.code ≠ 0 then return none
  let cat ← backend (bytes "cat -- " ++ path) none
  if cat.code ≠ 0 then
    throw (bytes "file.line: cannot read " ++ with_.path ++ bytes ": " ++ clean_reason cat.stderr)
  return some cat.stdout

def check (backend : Backend σ) (with_ : With) : Action σ (Bool × Option Outputs) := do
  let content ← read_file backend with_ (quote with_.path)
  match content with
  | none => return (decide (with_.state ≠ some .absent), none)
  | some content => return ((edited content with_).2, none)

/-- The `new_content` of `apply`. -/
def new_content (with_ : With) : Option Bytes → Bytes
  | none => with_.line ++ [10]
  | some content => (edited content with_).1

def apply (backend : Backend σ) (with_ : With) : Action σ Unit := do
  let path := quote with_.path
  let content ← read_file backend with_ path
  let write ← backend (bytes "cat > " ++ path) (some (new_content with_ content))
  if write.code ≠ 0 then
    throw (bytes "file.line: cannot write " ++ with_.path ++ bytes ": " ++
      clean_reason write.stderr)

def plugin (backend : Backend σ) : StepModule σ With := ⟨check backend, apply backend⟩

/-! ## Contents as pages -/

section Pages
variable {with_ : With} {line : Bytes} {lines before after : List Bytes}

theorem lineItems_read (body : Bytes) :
    (gmatch lineItems (body ++ [10])).map (·.text 0) = body.splitOn 10 := by
  have free : ∀ line ∈ body.splitOn 10, 10 ∉ line := Lines.free_splitOn body
  have joined : body ++ [10] = ((body.splitOn 10).map fun line => (line, [10])).flatMap
      (fun piece => piece.1 ++ piece.2) ++ ([] : Bytes) := by
    rw [List.append_nil, List.flatMap_map, ← Lines.intercalate_terminated (List.splitOn_ne_nil _ _),
      List.intercalate_splitOn]
  rw [joined, lineItems, Patterns.gmatch_pieces (Patterns.Never.byte List.not_mem_nil),
    List.map_map]
  · exact List.map_id _
  · intro piece present
    obtain ⟨line, inside, rfl⟩ := List.mem_map.mp present
    exact ⟨Patterns.Ends.byte (free line inside), List.cons_ne_nil _ _⟩

theorem split_lines_eq (content : Bytes) : split_lines content = Lines.read 10 content := by
  unfold split_lines Lines.read
  by_cases empty : content = []
  · rw [if_pos empty, if_pos empty]
  · rw [if_neg empty, if_neg empty]
    by_cases ends : content.getLast? = some 10
    · rw [if_pos ends, ends]
      simp only [lineItems_read]
      rfl
    · rw [if_neg ends, beq_eq_false_iff_ne.mpr ends]
      simp only [lineItems_read]
      rfl

theorem join_lines_eq (lines : List Bytes) (trailing : Bool) :
    join_lines lines trailing = Lines.write 10 (lines, trailing) := by
  unfold join_lines Lines.write
  simp only [List.length_pos_iff, ne_eq]
  split_ifs
  · rfl
  · rw [List.append_nil]

/-! ## The last match -/

theorem last_match_concat (lines : List Bytes) (line : Bytes) :
    last_match (lines ++ [line]) with_
      = if line_matches line with_ then some lines.length else last_match lines with_ := by
  unfold last_match
  rw [List.zipIdx_append, List.foldl_append]
  simp

theorem last_match_append (fails : ∀ line ∈ after, line_matches line with_ = false) :
    last_match (before ++ after) with_ = last_match before with_ := by
  induction after using List.reverseRecOn with
  | nil => rw [List.append_nil]
  | append_singleton after line inductionHypothesis =>
      rw [← List.append_assoc, last_match_concat, fails line (by simp), if_neg Bool.false_ne_true]
      exact inductionHypothesis fun other present => fails other (List.mem_append_left _ present)

theorem last_match_none (fails : ∀ line ∈ lines, line_matches line with_ = false) :
    last_match lines with_ = none := by
  rw [← List.nil_append lines, last_match_append fails]
  rfl

theorem last_match_of_matches (hit : line_matches line with_ = true)
    (fails : ∀ line ∈ after, line_matches line with_ = false) :
    last_match (before ++ line :: after) with_ = some before.length := by
  rw [← List.singleton_append, ← List.append_assoc, last_match_append fails, last_match_concat,
    if_pos hit]

/-- A list of lines has no match, or a last one. -/
theorem last_match_cases (lines : List Bytes) (with_ : With) :
    (∀ line ∈ lines, line_matches line with_ = false) ∨
      ∃ before line after, lines = before ++ line :: after ∧ line_matches line with_ = true ∧
        ∀ line ∈ after, line_matches line with_ = false := by
  induction lines using List.reverseRecOn with
  | nil => exact .inl fun _ present => absurd present List.not_mem_nil
  | append_singleton lines line inductionHypothesis =>
      by_cases hit : line_matches line with_ = true
      · exact .inr ⟨lines, line, [], rfl, hit, fun _ present => absurd present List.not_mem_nil⟩
      rw [Bool.not_eq_true] at hit
      rcases inductionHypothesis with fails | ⟨before, found, after, rfl, matched, fails⟩
      · left
        intro other present
        rcases List.mem_append.mp present with inside | last
        · exact fails other inside
        · rw [List.mem_singleton.mp last]
          exact hit
      · right
        refine ⟨before, found, after ++ [line], by simp, matched, ?_⟩
        intro other present
        rcases List.mem_append.mp present with inside | last
        · exact fails other inside
        · rw [List.mem_singleton.mp last]
          exact hit

/-! ## Editing a page -/

/-- The page behind an edit. -/
def edit (with_ : With) (page : Lines.Page UInt8) : Lines.Page UInt8 :=
  if with_.state = some .absent then
    (page.1.filter fun line => !line_matches line with_, page.2)
  else
    match last_match page.1 with_ with
    | none => (page.1 ++ [with_.line], true)
    | some last => (page.1.set last with_.line, page.2)

theorem edit_absent (absent : with_.state = some .absent) (page : Lines.Page UInt8) :
    edit with_ page = (page.1.filter fun line => !line_matches line with_, page.2) :=
  if_pos absent

theorem edit_append (present : with_.state ≠ some .absent) {terminated : Bool}
    (fails : ∀ line ∈ lines, line_matches line with_ = false) :
    edit with_ (lines, terminated) = (lines ++ [with_.line], true) := by
  have none : last_match lines with_ = none := last_match_none fails
  rw [edit, if_neg present]
  simp only [none]

theorem edit_replace (present : with_.state ≠ some .absent) {terminated : Bool}
    (hit : line_matches line with_ = true)
    (fails : ∀ line ∈ after, line_matches line with_ = false) :
    edit with_ (before ++ line :: after, terminated)
      = (before ++ with_.line :: after, terminated) := by
  rw [edit, if_neg present]
  simp only [last_match_of_matches hit fails]
  rw [List.set_append_right _ _ (Nat.le_refl _), Nat.sub_self, List.set_cons_zero]

/-- `edited` edits the page of a content, and reports whether the page is another one. -/
theorem edited_eq (content : Bytes) (with_ : With) :
    edited content with_ = (Lines.write 10 (edit with_ (Lines.read 10 content)),
      decide (edit with_ (Lines.read 10 content) ≠ Lines.read 10 content)) := by
  have back : Lines.write 10 (Lines.read 10 content) = content := Lines.write_read content
  unfold edited
  rw [split_lines_eq]
  generalize Lines.read 10 content = page at back
  obtain ⟨lines, terminated⟩ := page
  dsimp only
  by_cases absent : with_.state = some .absent
  · rw [if_pos absent, edit_absent absent, join_lines_eq]
    dsimp only
    by_cases removed : (lines.any fun line => line_matches line with_) = true
    · rw [removed, Bool.not_true, if_neg Bool.false_ne_true, decide_eq_true]
      intro same
      rw [List.any_eq_true] at removed
      obtain ⟨line, inside, hit⟩ := removed
      have kept := List.filter_eq_self.mp (congrArg Prod.fst same) line inside
      rw [hit] at kept
      exact Bool.false_ne_true kept
    · rw [Bool.not_eq_true] at removed
      have kept : lines.filter (fun line => !line_matches line with_) = lines := by
        rw [List.filter_eq_self]
        intro line inside
        rw [Bool.eq_false_iff.mpr (fun hit => List.any_eq_false.mp removed line inside hit)]
        rfl
      rw [removed, Bool.not_false, if_pos rfl, kept, back, decide_eq_false (not_not.mpr rfl)]
  · rw [if_neg absent]
    rcases last_match_cases lines with_ with fails | ⟨before, line, after, rfl, hit, fails⟩
    · have none : last_match lines with_ = none := last_match_none fails
      rw [edit_append absent fails, none, join_lines_eq]
      dsimp only
      rw [decide_eq_true]
      intro same
      have longer := congrArg List.length (congrArg Prod.fst same)
      rw [List.length_append, List.length_singleton] at longer
      exact Nat.succ_ne_self _ longer
    · rw [edit_replace absent hit fails, last_match_of_matches hit fails]
      dsimp only
      rw [List.getElem?_append_right (Nat.le_refl _), Nat.sub_self, List.getElem?_cons_zero]
      by_cases same : line = with_.line
      · rw [if_pos (congrArg some same), ← same, back, decide_eq_false (not_not.mpr rfl)]
      · rw [if_neg fun equal => same (Option.some.inj equal), join_lines_eq,
          List.set_append_right _ _ (Nat.le_refl _), Nat.sub_self, List.set_cons_zero,
          decide_eq_true]
        intro equal
        have tails := List.append_cancel_left (congrArg Prod.fst equal)
        exact same (List.cons.inj tails).1.symm

/-! ## What an edit leaves alone -/

/-- What the lines of an edit are, for the three things that can happen. -/
structure EditOf (with_ : With) (page result : Lines.Page UInt8) : Prop where
  absent : with_.state = some .absent →
    result = (page.1.filter fun line => !line_matches line with_, page.2)
  appended : with_.state ≠ some .absent → (∀ line ∈ page.1, line_matches line with_ = false) →
    result = (page.1 ++ [with_.line], true)
  replaced : with_.state ≠ some .absent → ∀ before line after, page.1 = before ++ line :: after →
    line_matches line with_ = true → (∀ line ∈ after, line_matches line with_ = false) →
    result = (before ++ with_.line :: after, page.2)

theorem editOf_edit (with_ : With) (page : Lines.Page UInt8) :
    EditOf with_ page (edit with_ page) := by
  obtain ⟨lines, terminated⟩ := page
  refine ⟨fun absent => edit_absent absent _, fun present fails => edit_append present fails, ?_⟩
  rintro present before line after rfl hit fails
  exact edit_replace present hit fails

theorem edit_free (plain : 10 ∉ with_.line) {page : Lines.Page UInt8}
    (free : ∀ line ∈ page.1, 10 ∉ line) : ∀ line ∈ (edit with_ page).1, 10 ∉ line := by
  obtain ⟨lines, terminated⟩ := page
  intro line inside
  by_cases absent : with_.state = some .absent
  · rw [edit_absent absent] at inside
    exact free line (List.mem_of_mem_filter inside)
  · rcases last_match_cases lines with_ with fails | ⟨before, found, after, rfl, hit, fails⟩
    · rw [edit_append absent fails, List.mem_append, List.mem_singleton] at inside
      rcases inside with old | rfl
      · exact free line old
      · exact plain
    · rw [edit_replace absent hit fails, List.mem_append, List.mem_cons] at inside
      rcases inside with old | rfl | old
      · exact free line (List.mem_append_left _ old)
      · exact plain
      · exact free line (List.mem_append_right _ (List.mem_cons_of_mem _ old))

/-- Another page is another content. -/
theorem edit_eq_of_write (plain : 10 ∉ with_.line) {content : Bytes}
    (same : Lines.write 10 (edit with_ (Lines.read 10 content)) = content) :
    edit with_ (Lines.read 10 content) = Lines.read 10 content := by
  have back : Lines.write 10 (Lines.read 10 content) = content := Lines.write_read content
  have free : ∀ line ∈ (Lines.read 10 content).1, 10 ∉ line := Lines.read_free content
  have edited_free := edit_free plain free
  generalize page_eq : Lines.read 10 content = page at same back free edited_free
  obtain ⟨lines, terminated⟩ := page
  by_cases absent : with_.state = some .absent
  · rw [edit_absent absent] at same edited_free ⊢
    by_cases none : lines = []
    · rw [none]
      rfl
    by_cases kept : lines.filter (fun line => !line_matches line with_) = []
    · simp only [kept] at same
      rw [show content = [] from same.symm] at page_eq
      exact absurd (congrArg Prod.fst page_eq).symm none
    · exact congrArg (·, terminated)
        (Lines.write_injective edited_free free kept none (same.trans back.symm))
  · rcases last_match_cases lines with_ with fails | ⟨before, found, after, rfl, hit, fails⟩
    · rw [edit_append absent fails] at same edited_free ⊢
      have reread := Lines.read_write edited_free true
      rw [same, page_eq, Lines.settle, if_neg (by simp), if_neg (by simp)] at reread
      exact reread.symm
    · rw [edit_replace absent hit fails] at same edited_free ⊢
      exact congrArg (·, terminated)
        (Lines.write_injective edited_free free (by simp) (by simp) (same.trans back.symm))

theorem edited_frame (content : Bytes) (with_ : With) :
    join_lines (split_lines content).1 (split_lines content).2 = content ∧
    (10 ∉ with_.line →
      ((edited content with_).2 = true ↔ (edited content with_).1 ≠ content) ∧
      ∃ lines terminated, EditOf with_ (split_lines content) (lines, terminated) ∧
        (edited content with_).1 = join_lines lines terminated ∧
        (lines = [] → (edited content with_).1 = []) ∧
        (terminated = false → lines.getLast? = some [] →
          split_lines (edited content with_).1 = (lines.dropLast, true)) ∧
        (lines ≠ [] → (terminated = true ∨ lines.getLast? ≠ some []) →
          split_lines (edited content with_).1 = (lines, terminated))) := by
  rw [split_lines_eq, join_lines_eq, edited_eq]
  refine ⟨Lines.write_read content, fun plain => ⟨?_, ?_⟩⟩
  · rw [decide_eq_true_iff, not_iff_not]
    constructor
    · intro same
      rw [same]
      exact Lines.write_read content
    · exact edit_eq_of_write plain
  · have free : ∀ line ∈ (edit with_ (Lines.read 10 content)).1, 10 ∉ line :=
      edit_free plain (Lines.read_free content)
    have shape := editOf_edit with_ (Lines.read 10 content)
    rw [split_lines_eq]
    generalize edit with_ (Lines.read 10 content) = page at free shape
    obtain ⟨lines, terminated⟩ := page
    refine ⟨lines, terminated, shape, (join_lines_eq _ _).symm, ?_, ?_, ?_⟩
    · rintro rfl
      rfl
    · intro unterminated last
      rw [Lines.read_write free, Lines.settle, if_neg, if_pos ⟨unterminated, last⟩]
      rintro rfl
      cases last
    · intro nonempty complete
      rw [Lines.read_write free, Lines.settle, if_neg nonempty, if_neg]
      rintro ⟨unterminated, last⟩
      rcases complete with terminated_ | other
      · exact Bool.false_ne_true (unterminated.symm.trans terminated_)
      · exact other last

/-- The lines that match `x` become empty. -/
def blanking : With := ⟨bytes "f", [], none, some ⟨false, [.one (.byte 120)]⟩⟩

/-- The last line of `a\nx` is replaced by an empty one, and gone with it. -/
theorem edited_frame_blanking :
    join_lines (split_lines (bytes "a\nx")).1 (split_lines (bytes "a\nx")).2 = bytes "a\nx" ∧
      ((edited (bytes "a\nx") blanking).2 = true ↔
        (edited (bytes "a\nx") blanking).1 ≠ bytes "a\nx") ∧
      split_lines (edited (bytes "a\nx") blanking).1 = ([bytes "a"], true) := by
  obtain ⟨back, frame⟩ := edited_frame (bytes "a\nx") blanking
  exact ⟨back, (frame (by decide)).1, by decide⟩

theorem not_every_line_kept :
    ¬ ∀ content with_ lines terminated, 10 ∉ With.line with_ →
      EditOf with_ (split_lines content) (lines, terminated) → (lines, terminated) ≠ ([[]], false) →
      (split_lines (edited content with_).1).1 = lines := by
  intro claim
  have shape := editOf_edit blanking (split_lines (bytes "a\nx"))
  have page : edit blanking (split_lines (bytes "a\nx")) = ([bytes "a", []], false) := by decide
  rw [page] at shape
  have kept := claim (bytes "a\nx") blanking _ _ (by decide) shape (by decide)
  revert kept
  decide

end Pages

end Qwe.Files.Line
