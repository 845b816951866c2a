import Mathlib.Data.List.Infix

/-!
# Masking patterns in a word

`Masks mark patterns word out` relates a word to a left-to-right masking of it:
at every position either a pattern is replaced by `mark`, or one letter is kept
because no pattern starts there, or the word ends inside a pattern and its tail
is kept as it stands.

Three general facts are drawn from it.  A pattern that shares no letter with
`mark` can survive only inside a kept tail; when no pattern starts another the
relation is a function of the word; and when no pattern occurs in another that
function is the plain scan that replaces every occurrence.
-/

set_option autoImplicit false

namespace Qwe.Masking

universe u

variable {α : Type u} {mark : List α} {patterns : List (List α)}

/-- Neither list starts the other: they differ at a position both have. -/
def Apart (pattern word : List α) : Prop :=
  ¬ pattern <+: word ∧ ¬ word <+: pattern

/-- A tail that may be kept: nothing, or a word that some pattern starts with
while no pattern starts it. -/
def OpenTail (patterns : List (List α)) (tail : List α) : Prop :=
  tail = [] ∨
    (∃ pattern ∈ patterns, tail <+: pattern) ∧
      ∀ pattern ∈ patterns, ¬ pattern <+: tail

inductive Masks (mark : List α) (patterns : List (List α)) :
    List α → List α → Prop where
  | tail {word : List α} (kept : OpenTail patterns word) :
      Masks mark patterns word word
  | hit {pattern word out : List α} (member : pattern ∈ patterns)
      (later : Masks mark patterns word out) :
      Masks mark patterns (pattern ++ word) (mark ++ out)
  | keep {letter : α} {word out : List α}
      (apart : ∀ pattern ∈ patterns, Apart pattern (letter :: word))
      (later : Masks mark patterns word out) :
      Masks mark patterns (letter :: word) (letter :: out)

theorem apart_append {pattern word : List α} (apart : Apart pattern word)
    (more : List α) : Apart pattern (word ++ more) := by
  constructor
  · intro starts
    rcases List.prefix_or_prefix_of_prefix starts (List.prefix_append word more) with
      before | after
    · exact apart.1 before
    · exact apart.2 after
  · intro starts
    exact apart.2 ((List.prefix_append word more).trans starts)

/-- A pattern that shares no letter with the mark sees only kept letters: where
it starts the output it starts the word. -/
theorem prefix_of_masks {word out pattern : List α}
    (masked : Masks mark patterns word out) (marked : mark ≠ [])
    (disjoint : ∀ letter ∈ pattern, letter ∉ mark)
    (starts : pattern <+: out) : pattern <+: word := by
  induction masked generalizing pattern with
  | tail kept => exact starts
  | hit member later ih =>
      cases pattern with
      | nil => exact List.nil_prefix
      | cons letter rest =>
          obtain ⟨first, mark', rfl⟩ := List.exists_cons_of_ne_nil marked
          rw [List.cons_append, List.cons_prefix_cons] at starts
          exact absurd (by simp [starts.1]) (disjoint letter (by simp))
  | keep apart later ih =>
      cases pattern with
      | nil => exact List.nil_prefix
      | cons letter rest =>
          rw [List.cons_prefix_cons] at starts ⊢
          refine ⟨starts.1, ih ?_ starts.2⟩
          intro other member
          exact disjoint other (List.mem_cons_of_mem letter member)

/-- A pattern that shares a letter with no mark cannot begin inside one. -/
theorem infix_of_infix_mark_append {out pattern : List α}
    (nonempty : pattern ≠ []) (disjoint : ∀ letter ∈ pattern, letter ∉ mark)
    (occurs : pattern <:+: mark ++ out) : pattern <:+: out := by
  obtain ⟨letter, rest, rfl⟩ := List.exists_cons_of_ne_nil nonempty
  rcases List.infix_append_iff.mp occurs with inside | after | ⟨front, back, split, fits, starts⟩
  · exact absurd (inside.subset (by simp)) (disjoint letter (by simp))
  · exact after
  · cases front with
    | nil =>
        rw [List.nil_append] at split
        rw [split]
        exact starts.isInfix
    | cons first front =>
        rw [List.cons_append, List.cons.injEq] at split
        rw [← split.1] at fits
        exact absurd (fits.subset (by simp)) (disjoint letter (by simp))

/-- Outside a kept tail nothing survives: a pattern of the output lies in an
open tail of the word. -/
theorem tail_of_infix {word out pattern : List α}
    (masked : Masks mark patterns word out) (marked : mark ≠ [])
    (member : pattern ∈ patterns) (nonempty : pattern ≠ [])
    (disjoint : ∀ letter ∈ pattern, letter ∉ mark)
    (occurs : pattern <:+: out) :
    ∃ tail, tail <:+ word ∧ OpenTail patterns tail ∧ pattern <:+: tail := by
  induction masked with
  | @tail word kept => exact ⟨word, List.suffix_refl word, kept, occurs⟩
  | @hit other word out _ later ih =>
      obtain ⟨tail, suffix, kept, inside⟩ :=
        ih (infix_of_infix_mark_append nonempty disjoint occurs)
      exact ⟨tail, suffix.trans (List.suffix_append other word), kept, inside⟩
  | @keep letter word out apart later ih =>
      rcases List.infix_cons_iff.mp occurs with starts | inside
      · have whole : Masks mark patterns (letter :: word) (letter :: out) :=
          .keep apart later
        exact absurd (prefix_of_masks whole marked disjoint starts)
          (apart pattern member).1
      · obtain ⟨tail, suffix, kept, inside⟩ := ih inside
        exact ⟨tail, suffix.trans (List.suffix_cons letter word), kept, inside⟩

theorem out_ne_nil {word out : List α} (masked : Masks mark patterns word out)
    (marked : mark ≠ []) (nonempty : word ≠ []) : out ≠ [] := by
  cases masked with
  | tail kept => exact nonempty
  | hit member later => simp [marked]
  | keep apart later => simp

/-- When no pattern starts another one, the word decides the output. -/
theorem masks_functional
    (prefixFree : ∀ p ∈ patterns, ∀ q ∈ patterns, p <+: q → p = q)
    (nonempty : ∀ p ∈ patterns, p ≠ [])
    {word out other : List α} (first : Masks mark patterns word out)
    (second : Masks mark patterns word other) : out = other := by
  induction first generalizing other with
  | @tail word kept =>
      cases second with
      | tail _ => rfl
      | @hit pattern rest _ member _ =>
          rcases kept with empty | ⟨_, unstarted⟩
          · have := (List.append_eq_nil_iff.mp empty).1
            exact absurd this (nonempty pattern member)
          · exact absurd (List.prefix_append pattern rest) (unstarted pattern member)
      | keep apart _ =>
          rcases kept with empty | ⟨⟨pattern, member, starts⟩, _⟩
          · simp at empty
          · exact absurd starts (apart pattern member).2
  | @hit pattern word out member later ih =>
      generalize whole : pattern ++ word = total at second
      cases second with
      | tail kept =>
          subst whole
          rcases kept with empty | ⟨_, unstarted⟩
          · have := (List.append_eq_nil_iff.mp empty).1
            exact absurd this (nonempty pattern member)
          · exact absurd (List.prefix_append pattern word) (unstarted pattern member)
      | @hit pattern' word' out' member' later' =>
          have same : pattern = pattern' := by
            have left : pattern <+: pattern' ++ word' := ⟨word, whole⟩
            rcases List.prefix_or_prefix_of_prefix left
              (List.prefix_append pattern' word') with before | after
            · exact prefixFree pattern member pattern' member' before
            · exact (prefixFree pattern' member' pattern member after).symm
          subst same
          have rest : word = word' := List.append_cancel_left whole
          subst rest
          rw [ih later']
      | keep apart _ =>
          rw [← whole] at apart
          exact absurd (List.prefix_append pattern word) (apart pattern member).1
  | @keep letter word out apart later ih =>
      generalize whole : letter :: word = total at second
      cases second with
      | tail kept =>
          subst whole
          rcases kept with empty | ⟨⟨pattern, member, starts⟩, _⟩
          · simp at empty
          · exact absurd starts (apart pattern member).2
      | @hit pattern rest _ member _ =>
          rw [whole] at apart
          exact absurd (List.prefix_append pattern rest) (apart pattern member).1
      | keep _ later' =>
          rw [List.cons.injEq] at whole
          obtain ⟨rfl, rfl⟩ := whole
          rw [ih later']

/-! ## The plain scan -/

/-- An open tail has no whole pattern in it. -/
theorem absent_of_openTail (infixFree : ∀ p ∈ patterns, ∀ q ∈ patterns, p <:+: q → p = q)
    {tail pattern : List α} (kept : OpenTail patterns tail) (filled : pattern ≠ [])
    (member : pattern ∈ patterns) : ¬ pattern <:+: tail := by
  intro occurs
  rcases kept with empty | ⟨⟨whole, known, starts⟩, unstarted⟩
  · rw [empty, List.infix_nil] at occurs
    exact filled occurs
  · have same := infixFree pattern member whole known (occurs.trans starts.isInfix)
    subst same
    have covers : pattern.length ≤ tail.length := occurs.length_le
    have equal : tail = pattern := starts.eq_of_length_le covers
    exact unstarted pattern member (equal ▸ List.prefix_refl tail)

section Scan

variable [DecidableEq α]

/-- The left-to-right scan: a pattern that starts here becomes `mark` and the scan
goes on behind it, any other letter is copied. -/
def replaceAll (mark : List α) (patterns : List (List α)) : List α → List α
  | [] => []
  | letter :: rest =>
      match patterns.find? fun pattern => pattern.isPrefixOf (letter :: rest) with
      | some pattern => mark ++ replaceAll mark patterns (rest.drop (pattern.length - 1))
      | none => letter :: replaceAll mark patterns rest
termination_by word => word.length
decreasing_by
  · rw [List.length_drop, List.length_cons]
    omega
  · rw [List.length_cons]
    omega

theorem replaceAll_cons_of_apart {letter : α} {word : List α}
    (apart : ∀ pattern ∈ patterns, ¬ pattern <+: letter :: word) :
    replaceAll mark patterns (letter :: word) = letter :: replaceAll mark patterns word := by
  have none_ : patterns.find? (fun pattern => pattern.isPrefixOf (letter :: word)) = none := by
    rw [List.find?_eq_none]
    intro pattern member starts
    exact apart pattern member (List.isPrefixOf_iff_prefix.mp starts)
  rw [replaceAll, none_]

/-- A word in which no pattern occurs is copied. -/
theorem replaceAll_eq_self {word : List α}
    (absent : ∀ pattern ∈ patterns, ¬ pattern <:+: word) :
    replaceAll mark patterns word = word := by
  induction word with
  | nil => rw [replaceAll]
  | cons letter word inductionHypothesis =>
      have later : replaceAll mark patterns word = word := by
        apply inductionHypothesis
        intro pattern member occurs
        exact absent pattern member (occurs.trans (List.suffix_cons letter word).isInfix)
      rw [replaceAll_cons_of_apart fun pattern member starts =>
        absent pattern member starts.isInfix, later]

variable (infixFree : ∀ p ∈ patterns, ∀ q ∈ patterns, p <:+: q → p = q)
  (nonempty : ∀ p ∈ patterns, p ≠ [])

include infixFree

theorem replaceAll_append {pattern : List α} (member : pattern ∈ patterns) (filled : pattern ≠ [])
    (word : List α) :
    replaceAll mark patterns (pattern ++ word) = mark ++ replaceAll mark patterns word := by
  obtain ⟨letter, rest, rfl⟩ := List.exists_cons_of_ne_nil filled
  have some_ : patterns.find? (fun pattern => pattern.isPrefixOf (letter :: (rest ++ word)))
      = some (letter :: rest) := by
    cases found : patterns.find? fun pattern => pattern.isPrefixOf (letter :: (rest ++ word)) with
    | none =>
        have starts := List.find?_eq_none.mp found (letter :: rest) member
        simp at starts
    | some other =>
        have starts : other <+: letter :: (rest ++ word) := by
          have tested := List.find?_some found
          exact List.isPrefixOf_iff_prefix.mp tested
        have known := List.mem_of_find?_eq_some found
        have own : letter :: rest <+: letter :: (rest ++ word) := List.prefix_append _ word
        rcases List.prefix_or_prefix_of_prefix starts own with shorter | longer
        · rw [infixFree other known _ member shorter.isInfix]
        · rw [infixFree _ member other known longer.isInfix]
  rw [List.cons_append, replaceAll, some_]
  simp

include nonempty

/-- When no pattern occurs in another one, masking is the plain scan. -/
theorem masks_eq_replaceAll {word out : List α} (masked : Masks mark patterns word out) :
    out = replaceAll mark patterns word := by
  induction masked with
  | @tail word kept =>
      symm
      apply replaceAll_eq_self
      intro pattern member
      exact absent_of_openTail infixFree kept (nonempty pattern member) member
  | @hit pattern word out member later inductionHypothesis =>
      rw [replaceAll_append infixFree member (nonempty pattern member), inductionHypothesis]
  | @keep letter word out apart later inductionHypothesis =>
      rw [replaceAll_cons_of_apart fun pattern member => (apart pattern member).1,
        inductionHypothesis]

end Scan

end Qwe.Masking
