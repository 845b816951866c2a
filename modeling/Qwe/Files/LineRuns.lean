import Qwe.Files.Line

/-!
# Runs of `file.line`

When a run of `file.line` reaches a file that the next run leaves as it is.
-/

set_option autoImplicit false

namespace Qwe.Files.Line

open Qwe.Redact (Bytes)
open Qwe.Template (bytes quote)

/-! ## What the step does to the file -/

section Steps
variable {σ : Type} {backend : Backend σ} {with_ : With} {fresh : Fin 4096}
  {file : σ → Option File}

def needs (with_ : With) : Option File → Option Bool
  | none => some (decide (with_.state ≠ some .absent))
  | some old => some (edited old.content with_).2

def target (fresh : Fin 4096) (with_ : With) : Option File → Option File
  | none => some ⟨fresh, with_.line ++ [10]⟩
  | some old => some ⟨old.mode, (edited old.content with_).1⟩

theorem exec_read_file (faithful : Faithful backend with_.path fresh file) (s : σ) :
    ∃ s', exec (read_file backend with_ (quote with_.path)) s
      = (.ok ((file s).map (·.content)), s') ∧ file s' = file s := by
  obtain ⟨stat, stated, stat_eq, same, there, -⟩ := faithful.stat s
  unfold read_file
  rw [exec_bind _ stat_eq]
  cases found : file s with
  | none =>
      rw [found] at there
      have missing : stat.code ≠ 0 := fun zero => there.mp zero rfl
      exact ⟨stated, by rw [if_pos missing]; rfl, same.trans found⟩
  | some old =>
      have present : stat.code = 0 := there.mpr (by rw [found]; exact Option.some_ne_none _)
      obtain ⟨cat, read, cat_eq, still, code, stdout⟩ :=
        faithful.cat stated old (same.trans found)
      refine ⟨read, ?_, still.trans (same.trans found)⟩
      rw [if_neg (not_not.mpr present), exec_bind _ cat_eq]
      dsimp only
      rw [if_neg (not_not.mpr code), stdout]
      rfl

theorem watches (faithful : Faithful backend with_.path fresh file) :
    Watches (plugin backend) with_ file (needs with_) (target fresh with_) := by
  constructor
  · intro s needed need
    obtain ⟨s', read_eq, same⟩ := exec_read_file faithful s
    refine ⟨none, s', ?_, same⟩
    change exec (check backend with_) s = _
    rw [check, exec_bind _ read_eq]
    cases found : file s with
    | none =>
        rw [found] at need
        cases need
        rfl
    | some old =>
        rw [found] at need
        cases need
        rfl
  · intro s raised
    cases found : file s with
    | none => rw [found] at raised; cases raised
    | some old => rw [found] at raised; cases raised
  · intro s _
    obtain ⟨s', read_eq, same⟩ := exec_read_file faithful s
    change ∃ s', exec (apply backend with_) s = _ ∧ _
    obtain ⟨reply, written, write_eq, code, made⟩ :=
      faithful.write s' (new_content with_ ((file s).map (·.content)))
    refine ⟨written, ?_, ?_⟩
    · rw [apply, exec_bind _ read_eq, exec_bind _ write_eq, if_neg (not_not.mpr code)]
      rfl
    · rw [made, same]
      cases file s with
      | none => rfl
      | some old => rfl

end Steps

/-! ## When the file settles -/

section Settling
variable {with_ : With} {fresh : Fin 4096} {content : Bytes}

/-- The last line is replaced by an empty one without a newline, which is then no line of the
file, and what the lines before it say is not what is wanted. -/
def Vanishes (with_ : With) (content : Bytes) : Prop :=
  ∃ earlier last, split_lines content = (earlier ++ [last], false) ∧
    line_matches last with_ = true ∧ with_.line = [] ∧
    (last_match earlier with_).bind (earlier[·]?) ≠ some []

/-- The line is one that the file can have and that the step then finds, and it does not
vanish. -/
def Settles (with_ : With) (content : Option Bytes) : Prop :=
  with_.state = some .absent ∨
    (10 ∉ with_.line ∧ line_matches with_.line with_ = true ∧
      ∀ text, content = some text → ¬ Vanishes with_ text)

/-- The last match of the lines is the line that is wanted. -/
def Holds (with_ : With) (lines : List Bytes) : Prop :=
  ∃ before after, lines = before ++ with_.line :: after ∧
    line_matches with_.line with_ = true ∧ ∀ line ∈ after, line_matches line with_ = false

theorem edit_eq_self_iff (present : with_.state ≠ some .absent) (page : Lines.Page UInt8) :
    edit with_ page = page ↔ Holds with_ page.1 := by
  obtain ⟨lines, terminated⟩ := page
  constructor
  · intro same
    rcases last_match_cases lines with_ with fails | ⟨before, line, after, rfl, hit, fails⟩
    · rw [edit_append present fails] at same
      have longer := congrArg List.length (congrArg Prod.fst same)
      rw [List.length_append, List.length_singleton] at longer
      exact absurd longer (Nat.succ_ne_self _)
    · rw [edit_replace present hit fails] at same
      have tails := List.append_cancel_left (congrArg Prod.fst same)
      obtain ⟨rfl, -⟩ := List.cons.inj tails
      exact ⟨before, after, rfl, hit, fails⟩
  · rintro ⟨before, after, lines_eq, hit, fails⟩
    change lines = _ at lines_eq
    rw [lines_eq, edit_replace present hit fails]

theorem holds_iff_last_match (lines : List Bytes) :
    Holds with_ lines ↔ (last_match lines with_).bind (lines[·]?) = some with_.line := by
  constructor
  · rintro ⟨before, after, rfl, hit, fails⟩
    rw [last_match_of_matches hit fails, Option.bind_some,
      List.getElem?_append_right (Nat.le_refl _), Nat.sub_self, List.getElem?_cons_zero]
  · intro last
    rcases last_match_cases lines with_ with fails | ⟨before, line, after, rfl, hit, fails⟩
    · rw [last_match_none fails] at last
      cases last
    · rw [last_match_of_matches hit fails, Option.bind_some,
        List.getElem?_append_right (Nat.le_refl _), Nat.sub_self, List.getElem?_cons_zero] at last
      cases last
      exact ⟨before, after, rfl, hit, fails⟩

theorem needs_some (old : File) :
    needs with_ (some old) = some false ↔
      edit with_ (Lines.read 10 old.content) = Lines.read 10 old.content := by
  rw [needs, edited_eq, Option.some_inj, decide_eq_false_iff_not, not_not]

/-- A last line that is not terminated is not empty. -/
theorem last_of_read {before after : List Bytes} {line : Bytes} {terminated : Bool}
    (page : Lines.read 10 content = (before ++ line :: after, terminated))
    (unterminated : terminated = false)
    (last : (before ++ with_.line :: after).getLast? = some []) :
    after = [] ∧ with_.line = [] := by
  subst unterminated
  have filled := Lines.read_last page
  cases after with
  | nil =>
      rw [List.getLast?_concat] at last
      exact ⟨rfl, Option.some.inj last⟩
  | cons next after =>
      rw [List.getLast?_append_of_ne_nil _ (List.cons_ne_nil _ _), List.getLast?_cons_cons]
        at last filled
      exact absurd last filled

/-- Whether the content needs no other edit behind an edit. -/
theorem edit_again (present : with_.state ≠ some .absent) (plain : 10 ∉ with_.line)
    (own : line_matches with_.line with_ = true) :
    edit with_ (Lines.read 10 (Lines.write 10 (edit with_ (Lines.read 10 content))))
      = Lines.read 10 (Lines.write 10 (edit with_ (Lines.read 10 content))) ↔
        ¬ Vanishes with_ content := by
  have free : ∀ line ∈ (edit with_ (Lines.read 10 content)).1, 10 ∉ line :=
    edit_free plain (Lines.read_free content)
  unfold Vanishes
  rw [split_lines_eq, edit_eq_self_iff present]
  generalize page_eq : Lines.read 10 content = page at free
  obtain ⟨lines, terminated⟩ := page
  rcases last_match_cases lines with_ with fails | ⟨before, line, after, rfl, hit, fails⟩
  · rw [edit_append present fails] at free ⊢
    rw [Lines.read_write free, Lines.settle, if_neg (by simp), if_neg (by simp)]
    refine iff_of_true ⟨lines, [], rfl, own, by simp⟩ ?_
    rintro ⟨earlier, last, same, hit, -⟩
    cases same
    rw [fails last (by simp)] at hit
    exact Bool.false_ne_true hit
  · rw [edit_replace present hit fails] at free ⊢
    rw [Lines.read_write free, Lines.settle, if_neg (by simp)]
    by_cases lost : terminated = false ∧ (before ++ with_.line :: after).getLast? = some []
    · obtain ⟨rfl, blank⟩ := last_of_read page_eq lost.1 lost.2
      rw [if_pos lost]
      dsimp only
      rw [List.dropLast_concat, holds_iff_last_match, blank]
      constructor
      · rintro found ⟨earlier, last, same, -, -, other⟩
        obtain ⟨rfl, -⟩ := List.append_inj' (congrArg Prod.fst same) rfl
        exact other found
      · intro none
        by_contra other
        exact none ⟨before, line, by rw [lost.1], hit, rfl, other⟩
    · rw [if_neg lost]
      refine iff_of_true ⟨before, after, rfl, own, fails⟩ ?_
      rintro ⟨earlier, last, same, matched, blank, -⟩
      apply lost
      refine ⟨congrArg Prod.snd same, ?_⟩
      rcases List.eq_nil_or_concat' after with rfl | ⟨front, ending, rfl⟩
      · rw [List.getLast?_concat, blank]
      · have lines_eq := congrArg Prod.fst same
        rw [← List.cons_append, ← List.append_assoc] at lines_eq
        obtain ⟨-, ends⟩ := List.append_inj' lines_eq rfl
        have unmatched := fails ending (by simp)
        rw [(List.cons.inj ends).1, matched] at unmatched
        exact absurd unmatched.symm Bool.false_ne_true

/-- A run leaves a file that needs nothing more where the edited file needs nothing more. -/
theorem final_some (old : File) :
    needs with_ (final (needs with_) (target fresh with_) (some old)) = some false ↔
      edit with_ (Lines.read 10 (Lines.write 10 (edit with_ (Lines.read 10 old.content))))
        = Lines.read 10 (Lines.write 10 (edit with_ (Lines.read 10 old.content))) := by
  unfold final
  by_cases needed : needs with_ (some old) = some true
  · rw [if_pos needed, target, needs_some, edited_eq]
  · have rested : needs with_ (some old) = some false := by
      rw [needs, Option.some_inj, Bool.not_eq_true] at needed
      rw [needs, needed]
    have same := (needs_some old).mp rested
    rw [if_neg needed, needs_some, same, Lines.write_read, same]

theorem final_missing (present : with_.state ≠ some .absent) :
    final (needs with_) (target fresh with_) none = some ⟨fresh, with_.line ++ [10]⟩ := by
  have needed : needs with_ none = some true := by rw [needs, decide_eq_true present]
  rw [final, if_pos needed, target]

theorem settles_absent (absent : with_.state = some .absent) (file : Option File) :
    needs with_ (final (needs with_) (target fresh with_) file) = some false := by
  cases file with
  | none =>
      have rested : needs with_ none = some false := by rw [needs, absent]; rfl
      rw [final, rested, if_neg (by decide), rested]
  | some old =>
      have inner := edit_absent absent (Lines.read 10 old.content)
      have free : ∀ line ∈ (edit with_ (Lines.read 10 old.content)).1, 10 ∉ line := by
        rw [inner]
        intro line inside
        exact Lines.read_free old.content line (List.mem_of_mem_filter inside)
      rw [final_some, Lines.read_write free, edit_absent absent]
      refine Prod.ext (List.filter_eq_self.mpr fun line inside => ?_) rfl
      have kept := Lines.mem_of_mem_settle inside
      rw [inner] at kept
      exact (List.mem_filter.mp kept).2

/-- A line that no file can have, or that the step does not find, is never there. -/
theorem edit_ne_self (present : with_.state ≠ some .absent)
    (off : ¬ (10 ∉ with_.line ∧ line_matches with_.line with_ = true)) :
    edit with_ (Lines.read 10 content) ≠ Lines.read 10 content := by
  rw [ne_eq, edit_eq_self_iff present]
  rintro ⟨before, after, lines_eq, hit, -⟩
  refine off ⟨Lines.read_free content with_.line ?_, hit⟩
  rw [lines_eq]
  exact List.mem_append_right _ List.mem_cons_self

theorem settles_iff (file : Option File) :
    needs with_ (final (needs with_) (target fresh with_) file) = some false ↔
      Settles with_ (file.map (·.content)) := by
  unfold Settles
  by_cases absent : with_.state = some .absent
  · exact iff_of_true (settles_absent absent file) (.inl absent)
  by_cases own : 10 ∉ with_.line ∧ line_matches with_.line with_ = true
  · cases file with
    | none =>
        refine iff_of_true ?_ (.inr ⟨own.1, own.2, fun _ there => by cases there⟩)
        have page : with_.line ++ [10] = Lines.write 10 ([with_.line], true) := by
          simp [Lines.write, List.intercalate]
        have free : ∀ line ∈ [with_.line], 10 ∉ line := by
          intro line inside
          rw [List.mem_singleton.mp inside]
          exact own.1
        rw [final_missing absent, needs_some, page, Lines.read_write free, edit_eq_self_iff absent]
        exact ⟨[], [], rfl, own.2, fun _ inside => absurd inside List.not_mem_nil⟩
    | some old =>
        rw [final_some, edit_again absent own.1 own.2]
        simp only [absent, own, Option.map_some, Option.some_inj, false_or, true_and,
          not_false_eq_true, forall_eq']
  · refine iff_of_false ?_ ?_
    · cases file with
      | none =>
          rw [final_missing absent, needs_some]
          exact edit_ne_self absent own
      | some old =>
          rw [final_some]
          exact edit_ne_self absent own
    · rintro (state | ⟨plain, found, -⟩)
      · exact absent state
      · exact own ⟨plain, found⟩

end Settling

/-- `^KEY=` is replaced by a line of its own kind, or by another. -/
def keyLine (line : Bytes) : With :=
  ⟨bytes "f", line, none,
    some ⟨true, [.one (.byte 75), .one (.byte 69), .one (.byte 89), .one (.byte 61)]⟩⟩

def keyFile : Option File := some ⟨⟨420, by decide⟩, bytes "KEY=old\n"⟩

end Qwe.Files.Line
