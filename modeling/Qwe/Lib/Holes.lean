import Mathlib.Data.List.Basic

/-!
# Texts with holes

A text is read once from the left.  Where the opening mark starts and the
closing mark follows, the part between them is a hole; everything else stands
for itself.  Filling puts a value in the place of every hole.
-/

set_option autoImplicit false

namespace Qwe.Holes

variable {α : Type}

/-- The opening mark is `first :: more`. -/
structure Marks (α : Type) where
  first : α
  more : List α
  closing : List α

inductive Segment (α : Type) where
  | text (a : α)
  | hole (inner : List α)

section Reading

variable [DecidableEq α] (marks : Marks α)

/-- The part of a text before the first occurrence of `closing`. -/
def before (closing : List α) : List α → Option (List α)
  | [] => if closing.isEmpty then some [] else none
  | a :: rest =>
      if closing.isPrefixOf (a :: rest) then some []
      else (before closing rest).map (a :: ·)

/-- The hole that starts at the front of a text. -/
def holeAt : List α → Option (List α)
  | [] => none
  | a :: rest =>
      if a = marks.first ∧ marks.more.isPrefixOf rest then
        before marks.closing (rest.drop marks.more.length)
      else none

/-- The segments of what follows the next `skip` elements. -/
def segmentsFrom : Nat → List α → List (Segment α)
  | _, [] => []
  | skip + 1, _ :: rest => segmentsFrom skip rest
  | 0, a :: rest =>
      match holeAt marks (a :: rest) with
      | some inner =>
          .hole inner ::
            segmentsFrom (marks.more.length + inner.length + marks.closing.length) rest
      | none => .text a :: segmentsFrom 0 rest

def segments (text : List α) : List (Segment α) :=
  segmentsFrom marks 0 text

theorem segments_plain {text : List α} (plain : marks.first ∉ text) :
    segments marks text = text.map .text := by
  induction text with
  | nil => rfl
  | cons a rest inductionHypothesis =>
      rw [List.mem_cons, not_or] at plain
      have closed : holeAt marks (a :: rest) = none := by
        rw [holeAt, if_neg]
        rintro ⟨same, -⟩
        exact plain.1 same.symm
      rw [segments, segmentsFrom, closed, List.map_cons]
      exact congrArg _ (inductionHypothesis plain.2)

end Reading

/-! ## Filling -/

def holes (segments : List (Segment α)) : List (List α) :=
  segments.filterMap fun
    | .text _ => none
    | .hole inner => some inner

def fill (value : List α → List α) (segments : List (Segment α)) : List α :=
  segments.flatMap fun
    | .text a => [a]
    | .hole inner => value inner

variable {f g : List α → List α}

@[simp]
theorem fill_nil : fill f ([] : List (Segment α)) = [] := rfl

@[simp]
theorem fill_text (a : α) (rest : List (Segment α)) :
    fill f (.text a :: rest) = a :: fill f rest := rfl

@[simp]
theorem fill_hole (inner : List α) (rest : List (Segment α)) :
    fill f (.hole inner :: rest) = f inner ++ fill f rest := rfl

@[simp]
theorem holes_text (a : α) (rest : List (Segment α)) :
    holes (.text a :: rest) = holes rest := rfl

@[simp]
theorem holes_hole (inner : List α) (rest : List (Segment α)) :
    holes (.hole inner :: rest) = inner :: holes rest := rfl

theorem fill_map_text (text : List α) : fill f (text.map .text) = text := by
  induction text with
  | nil => rfl
  | cons a rest inductionHypothesis =>
      rw [List.map_cons, fill_text, inductionHypothesis]

theorem holes_map_text (text : List α) : holes (text.map Segment.text) = [] := by
  induction text with
  | nil => rfl
  | cons a rest inductionHypothesis =>
      rw [List.map_cons, holes_text, inductionHypothesis]

/-- What fills the holes is all that matters. -/
theorem fill_congr {segments : List (Segment α)}
    (agree : ∀ inner ∈ holes segments, f inner = g inner) :
    fill f segments = fill g segments := by
  induction segments with
  | nil => rfl
  | cons segment rest inductionHypothesis =>
      cases segment with
      | text a => rw [fill_text, fill_text, inductionHypothesis agree]
      | hole inner =>
          rw [holes_hole, List.forall_mem_cons] at agree
          rw [fill_hole, fill_hole, agree.1, inductionHypothesis agree.2]

end Qwe.Holes
