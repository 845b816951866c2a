import Mathlib.Data.List.Basic

/-!
# The words of a simple command

How a POSIX shell splits a text into the words of one simple command: blanks, the backslash,
single and double quotes.  A text that holds more than words has no result: an operator, an
expansion, a file pattern, a comment, an assignment, a reserved word, or a quote that is not
closed.
-/

set_option autoImplicit false

namespace Qwe.Words

abbrev Text := List UInt8

inductive Mode where
  | bare
  | single
  | double
deriving DecidableEq, Repr

/-- The bytes that are more than themselves outside of quotes, wherever they stand: newline,
`$`, `&`, `(`, `)`, `*`, `;`, `<`, `>`, `?`, `[`, the backquote and the vertical bar. -/
def special : List UInt8 := [10, 36, 38, 40, 41, 42, 59, 60, 62, 63, 91, 96, 124]

/-- The words that are done, and the one that has begun. -/
def scan : Mode → List Text → Option Text → Text → Option (List Text)
  | .bare, done, word, [] => some (done ++ word.toList)
  | .single, _, _, [] => none
  | .double, _, _, [] => none
  | .bare, done, word, c :: rest =>
      if c = 32 ∨ c = 9 then scan .bare (done ++ word.toList) none rest
      else if c = 39 then scan .single done (some (word.getD [])) rest
      else if c = 34 then scan .double done (some (word.getD [])) rest
      else if c = 92 then
        match rest with
        | [] => none
        | next :: rest =>
            -- a backslash and a newline are removed
            if next = 10 then scan .bare done word rest
            else scan .bare done (some (word.getD [] ++ [next])) rest
      else if c ∈ special then none
      -- a comment and a home directory begin a word, an assignment is in the first one
      else if (c = 35 ∨ c = 126) ∧ word = none then none
      else if c = 61 ∧ done = [] then none
      else scan .bare done (some (word.getD [] ++ [c])) rest
  | .single, done, word, c :: rest =>
      if c = 39 then scan .bare done word rest
      else scan .single done (some (word.getD [] ++ [c])) rest
  | .double, done, word, c :: rest =>
      if c = 34 then scan .bare done word rest
      else if c = 36 ∨ c = 96 then none
      else if c = 92 then
        match rest with
        | [] => none
        | next :: rest =>
            if next = 10 then scan .double done word rest
            else if next = 34 ∨ next = 36 ∨ next = 92 ∨ next = 96 then
              scan .double done (some (word.getD [] ++ [next])) rest
            else scan .double done (some (word.getD [] ++ [92, next])) rest
      else scan .double done (some (word.getD [] ++ [c])) rest
termination_by structural _ _ _ text => text

def literal (s : String) : Text := s.toUTF8.data.toList

/-- The words that are reserved where a command begins. -/
def reserved : List Text :=
  ["!", "\x7b", "\x7d", "case", "do", "done", "elif", "else", "esac", "fi", "for", "if", "in",
    "then", "until", "while"].map literal

/-- The words of a command. -/
def split (text : Text) : Option (List Text) :=
  (scan .bare [] none text).filter fun words => words.head?.all fun first => !reserved.contains first

/-! ## The rules -/

section Rules
variable {done : List Text} {word : Option Text} {begun s rest : Text} {c : UInt8}

/-- A byte that stands for itself outside of quotes, in every place but the first of a word and
in every word but the first. -/
def Ordinary (c : UInt8) : Prop :=
  c ∉ special ∧ c ≠ 32 ∧ c ≠ 9 ∧ c ≠ 39 ∧ c ≠ 34 ∧ c ≠ 92

instance (c : UInt8) : Decidable (Ordinary c) :=
  inferInstanceAs (Decidable (c ∉ special ∧ c ≠ 32 ∧ c ≠ 9 ∧ c ≠ 39 ∧ c ≠ 34 ∧ c ≠ 92))

@[simp]
theorem scan_end (done : List Text) (word : Option Text) :
    scan .bare done word [] = some (done ++ word.toList) := by
  rw [scan.eq_def]

theorem scan_blank (done : List Text) (word : Option Text) (rest : Text) :
    scan .bare done word (32 :: rest) = scan .bare (done ++ word.toList) none rest := by
  rw [scan.eq_def]
  rfl

theorem scan_ordinary (ordinary : Ordinary c) (begins : word = none → c ≠ 35 ∧ c ≠ 126)
    (assigns : done = [] → c ≠ 61) :
    scan .bare done word (c :: rest) = scan .bare done (some (word.getD [] ++ [c])) rest := by
  obtain ⟨plain, space, tab, single, double, backslash⟩ := ordinary
  have start : ¬ ((c = 35 ∨ c = 126) ∧ word = none) := by
    rintro ⟨first | first, none⟩
    · exact (begins none).1 first
    · exact (begins none).2 first
  have assign : ¬ (c = 61 ∧ done = []) := fun both => assigns both.2 both.1
  rw [scan.eq_def]
  simp only [space, tab, single, double, backslash, plain, start, assign, or_self, if_false]

/-- Bytes that stand for themselves join the word. -/
theorem scan_ordinaries (ordinary : ∀ c ∈ s, Ordinary c) (assigns : done = [] → 61 ∉ s) :
    scan .bare done (some begun) (s ++ rest) = scan .bare done (some (begun ++ s)) rest := by
  induction s generalizing begun with
  | nil => rw [List.append_nil, List.nil_append]
  | cons c s inductionHypothesis =>
      rw [List.forall_mem_cons] at ordinary
      rw [List.cons_append, scan_ordinary ordinary.1 (fun none => by cases none)
        fun first same => assigns first (by rw [same]; exact List.mem_cons_self)]
      rw [inductionHypothesis ordinary.2 fun first inside =>
        assigns first (List.mem_cons_of_mem _ inside)]
      simp

/-- A word of such bytes, where it is neither a comment nor a home directory. -/
theorem scan_word (ordinary : ∀ b ∈ c :: s, Ordinary b) (begins : c ≠ 35 ∧ c ≠ 126)
    (assigns : done = [] → 61 ∉ c :: s) :
    scan .bare done none (c :: s ++ rest) = scan .bare done (some (c :: s)) rest := by
  rw [List.forall_mem_cons] at ordinary
  rw [List.cons_append, scan_ordinary ordinary.1 (fun _ => begins)
    fun first same => assigns first (by rw [same]; exact List.mem_cons_self)]
  exact scan_ordinaries ordinary.2 fun first inside => assigns first (List.mem_cons_of_mem _ inside)

theorem scan_open (done : List Text) (word : Option Text) (rest : Text) :
    scan .bare done word (39 :: rest) = scan .single done (some (word.getD [])) rest := by
  rw [scan.eq_def]
  rfl

theorem scan_close (done : List Text) (word : Option Text) (rest : Text) :
    scan .single done word (39 :: rest) = scan .bare done word rest := by
  rw [scan.eq_def]
  rfl

theorem scan_single (other : c ≠ 39) :
    scan .single done (some begun) (c :: rest) = scan .single done (some (begun ++ [c])) rest := by
  rw [scan, if_neg other]
  rfl

/-- Single quotes are left for one escaped single quote. -/
theorem scan_escaped (done : List Text) (begun rest : Text) :
    scan .single done (some begun) (39 :: 92 :: 39 :: 39 :: rest)
      = scan .single done (some (begun ++ [39])) rest := by
  rw [scan_close, scan.eq_def]
  change scan .bare done (some (begun ++ [39])) (39 :: rest) = _
  rw [scan_open]
  rfl

/-- A text is split into its words where the first of them is not reserved. -/
theorem split_eq {text first : Text} {words : List Text}
    (scanned : scan .bare [] none text = some (first :: words)) (free : first ∉ reserved) :
    split text = some (first :: words) := by
  rw [split, scanned, Option.filter_some, if_pos]
  change (!reserved.contains first) = true
  rw [Bool.not_eq_true', List.contains_eq_mem]
  exact decide_eq_false free

end Rules

end Qwe.Words
