import Qwe.Lib.Holes
import Qwe.Lib.Pattern

/-!
# Holes as a pattern

The pattern of an opening mark, `(.-)` and a closing mark: replacing its matches fills the
holes of a text, each of them once.
-/

set_option autoImplicit false

namespace Qwe.Holes

open Qwe.Patterns

/-! ## Marks in a text -/

section Marks
variable {α : Type} [DecidableEq α] {marks : Marks α} {closing text inner : List α}

theorem before_eq_some (found : before closing text = some inner) :
    ∃ rest, text = inner ++ (closing ++ rest) ∧
      ∀ j < inner.length, ¬ closing.isPrefixOf (text.drop j) = true := by
  induction text generalizing inner with
  | nil =>
      rw [before] at found
      split_ifs at found with empty
      cases found
      rw [List.isEmpty_iff] at empty
      exact ⟨[], by rw [empty]; rfl, fun j below => absurd below (Nat.not_lt_zero j)⟩
  | cons a text inductionHypothesis =>
      rw [before] at found
      split_ifs at found with here
      · cases found
        obtain ⟨rest, same⟩ := List.isPrefixOf_iff_prefix.mp here
        exact ⟨rest, same.symm, fun j below => absurd below (Nat.not_lt_zero j)⟩
      · obtain ⟨inner, behind, rfl⟩ := Option.map_eq_some_iff.mp found
        obtain ⟨rest, same, fails⟩ := inductionHypothesis behind
        refine ⟨rest, by rw [same]; rfl, ?_⟩
        intro j below
        cases j with
        | zero => exact here
        | succ j => exact fails j (Nat.lt_of_succ_lt_succ below)

theorem before_eq_none (closes : closing ≠ []) (found : before closing text = none) (j : Nat) :
    ¬ closing.isPrefixOf (text.drop j) = true := by
  induction text generalizing j with
  | nil =>
      rw [List.drop_nil]
      intro here
      exact closes (List.prefix_nil.mp (List.isPrefixOf_iff_prefix.mp here))
  | cons a text inductionHypothesis =>
      rw [before] at found
      split_ifs at found with here
      cases j with
      | zero => exact here
      | succ j => exact inductionHypothesis (Option.map_eq_none_iff.mp found) j

theorem segmentsFrom_skip (n : Nat) (text : List α) :
    segmentsFrom marks n text = segments marks (text.drop n) := by
  induction n generalizing text with
  | zero => rfl
  | succ n inductionHypothesis =>
      cases text with
      | nil => rfl
      | cons a text => exact inductionHypothesis text

theorem holeAt_eq_some (found : holeAt marks text = some inner) :
    ∃ rest, text = marks.first :: marks.more ++ (inner ++ (marks.closing ++ rest)) ∧
      ∀ j < inner.length,
        ¬ marks.closing.isPrefixOf ((inner ++ (marks.closing ++ rest)).drop j) = true := by
  cases text with
  | nil => cases found
  | cons a text =>
      rw [holeAt] at found
      split_ifs at found with opens
      obtain ⟨rfl, more⟩ := opens
      obtain ⟨behind, rfl⟩ := List.isPrefixOf_iff_prefix.mp more
      rw [List.drop_left] at found
      obtain ⟨rest, rfl, fails⟩ := before_eq_some found
      exact ⟨rest, rfl, fails⟩

theorem segments_cons_some {a : α} (found : holeAt marks (a :: text) = some inner) :
    segments marks (a :: text) = .hole inner :: segments marks
      (text.drop (marks.more.length + inner.length + marks.closing.length)) := by
  rw [segments, segmentsFrom, found]
  dsimp only
  rw [segmentsFrom_skip]

theorem segments_cons_none {a : α} (found : holeAt marks (a :: text) = none) :
    segments marks (a :: text) = .text a :: segments marks text := by
  rw [segments, segmentsFrom, found]
  rfl

omit [DecidableEq α] in
theorem drop_hole (marks : Marks α) (inner rest : List α) :
    (marks.more ++ (inner ++ (marks.closing ++ rest))).drop
      (marks.more.length + inner.length + marks.closing.length) = rest := by
  rw [← List.append_assoc, ← List.append_assoc]
  exact List.drop_left' (by simp only [List.length_append])

/-- With its marks put back around every hole the text is what it was. -/
theorem fill_segments (text : List α) :
    fill (fun inner => marks.first :: marks.more ++ inner ++ marks.closing)
      (segments marks text) = text := by
  induction size : text.length using Nat.strongRecOn generalizing text with
  | ind length inductionHypothesis =>
      cases text with
      | nil => rfl
      | cons a text =>
          cases found : holeAt marks (a :: text) with
          | none =>
              rw [segments_cons_none found, fill_text,
                inductionHypothesis text.length (by rw [← size]; exact Nat.lt_succ_self _) text rfl]
          | some inner =>
              obtain ⟨rest, same, -⟩ := holeAt_eq_some found
              rw [List.cons_append, List.cons.injEq] at same
              obtain ⟨rfl, rfl⟩ := same
              have shorter : rest.length < length := by
                rw [← size]
                simp only [List.length_cons, List.length_append]
                omega
              rw [segments_cons_some found, fill_hole, drop_hole,
                inductionHypothesis rest.length shorter rest rfl]
              simp only [List.cons_append, List.append_assoc]

end Marks

/-! ## The pattern -/

section Filling
variable {marks : Marks UInt8} {p q : Place} {items : List Item} {word inner rest : Text}

/-- Bytes that stand for themselves. -/
def literal (word : Text) : List Item := word.map fun b => .one (.byte b)

def holeItems (marks : Marks UInt8) : List Item :=
  literal (marks.first :: marks.more) ++ (.start :: .lazy .any :: .stop :: literal marks.closing)

theorem fresh_rest (p : Place) : p.fresh.rest = p.rest := rfl

theorem run_literal (word : Text) (items : List Item) (p : Place) :
    run (literal word ++ items) p
      = if word.isPrefixOf p.rest then run items (p.skip word.length) else none := by
  induction word generalizing p with
  | nil => rfl
  | cons b word inductionHypothesis =>
      change run (.one (.byte b) :: (literal word ++ items)) p = _
      cases front : p.rest with
      | nil =>
          rw [run_one_none (sees_nil front)]
          rfl
      | cons a rest =>
          have behind : p.next.rest = rest := by rw [next_rest, front, List.tail_cons]
          by_cases same : b = a
          · subst same
            rw [run_byte front, inductionHypothesis, behind, List.isPrefixOf_cons_cons,
              beq_self_eq_true, Bool.true_and]
            rfl
          · have other : (b == a) = false := beq_eq_false_iff_ne.mpr same
            rw [run_one_none (by rw [sees_cons front]; exact other), List.isPrefixOf_cons_cons,
              other]
            rfl

theorem run_literal_nil (word : Text) (p : Place) :
    run (literal word) p = if word.isPrefixOf p.rest then some (p.skip word.length) else none := by
  rw [← List.append_nil (literal word), run_literal]
  rfl

/-- `(.-)` and a closing mark, where the mark first stands behind `inner`. -/
theorem run_closing {closing : Text} (front : p.rest = inner ++ (closing ++ rest))
    (fails : ∀ j < inner.length, ¬ closing.isPrefixOf ((inner ++ (closing ++ rest)).drop j) = true) :
    ∃ q, run (.start :: .lazy .any :: .stop :: literal closing) p = some q ∧
      q.captures = p.captures ++ [.finished inner] ∧ q.rest = rest := by
  have behind := skip_front front
  refine ⟨((p.skip inner.length).capture (.finished inner)).skip closing.length, ?_, ?_, ?_⟩
  · apply run_lazy_capture front
    · intro j below what
      rw [run_literal_nil, if_neg]
      change ¬ closing.isPrefixOf (p.skip j).rest = true
      rw [skip_rest, front]
      exact fails j below
    · rw [run_literal_nil, if_pos]
      change closing.isPrefixOf (p.skip inner.length).rest = true
      rw [behind, List.isPrefixOf_iff_prefix]
      exact List.prefix_append _ _
  · rw [skip_captures, Place.capture, skip_captures]
  · exact skip_front (p := (p.skip inner.length).capture _) behind

theorem run_hole (found : holeAt marks p.rest = some inner) :
    ∃ q, run (holeItems marks) p = some q ∧ q.captures = p.captures ++ [.finished inner] ∧
      p.rest = marks.first :: marks.more ++ (inner ++ (marks.closing ++ q.rest)) := by
  obtain ⟨rest, front, fails⟩ := holeAt_eq_some found
  have opens : (marks.first :: marks.more).isPrefixOf p.rest = true := by
    rw [List.isPrefixOf_iff_prefix, front]
    exact List.prefix_append _ _
  obtain ⟨q, hit, captured, left⟩ := run_closing (skip_front front) fails
  rw [skip_captures] at captured
  refine ⟨q, ?_, captured, by rw [left]; exact front⟩
  rw [holeItems, run_literal, if_pos opens]
  exact hit

theorem run_hole_none (closes : marks.closing ≠ []) (found : holeAt marks p.rest = none) :
    run (holeItems marks) p = none := by
  rw [holeItems, run_literal]
  by_cases opens : (marks.first :: marks.more).isPrefixOf p.rest = true
  · rw [if_pos opens]
    obtain ⟨rest, front⟩ := List.isPrefixOf_iff_prefix.mp opens
    have inside := skip_front front.symm
    rw [← front, List.cons_append, holeAt, if_pos, List.drop_left] at found
    · apply run_lazy_capture_none
      intro j below what
      rw [run_literal_nil, if_neg]
      change ¬ marks.closing.isPrefixOf ((p.skip _).skip j).rest = true
      rw [skip_rest, inside]
      exact before_eq_none closes found j
    · exact ⟨rfl, List.isPrefixOf_iff_prefix.mpr (List.prefix_append _ _)⟩
  · rw [if_neg opens]

/-- Replacing the matches of the pattern fills the holes. -/
theorem gsubFrom_holes (closes : marks.closing ≠ []) (value : Text → Text) {n : Nat}
    (fuel : p.rest.length < n) :
    gsubFrom (holeItems marks) (fun found => value (found.text 0)) n p
      = fill value (segments marks p.rest) := by
  induction n generalizing p with
  | zero => omega
  | succ n inductionHypothesis =>
      rw [gsubFrom]
      cases front : p.rest with
      | nil =>
          have none : holeAt marks p.fresh.rest = none := by
            rw [fresh_rest, front]
            rfl
          rw [run_hole_none closes none]
          rfl
      | cons a rest =>
          have behind : p.next.rest = rest := by rw [next_rest, front, List.tail_cons]
          rw [front, List.length_cons] at fuel
          cases found : holeAt marks (a :: rest) with
          | none =>
              have none : holeAt marks p.fresh.rest = none := by rw [fresh_rest, front, found]
              rw [run_hole_none closes none]
              dsimp only
              rw [segments_cons_none found, fill_text, inductionHypothesis (by rw [behind]; omega),
                behind]
          | some inner =>
              obtain ⟨q, hit, captured, same⟩ := run_hole
                (show holeAt marks p.fresh.rest = some inner by rw [fresh_rest, front, found])
              rw [fresh_rest, front, List.cons_append, List.cons.injEq] at same
              obtain ⟨rfl, rfl⟩ := same
              have shorter : q.rest.length
                  < (marks.first :: (marks.more ++ (inner ++ (marks.closing ++ q.rest)))).length := by
                simp only [List.length_cons, List.length_append]
                omega
              have enough : q.rest.length < n :=
                Nat.lt_of_lt_of_le shorter (Nat.le_of_lt_succ fuel)
              have text : (matched p q).text 0 = inner := by
                rw [matched, Match.text, captured]
                rfl
              rw [hit]
              dsimp only
              rw [if_pos shorter, inductionHypothesis enough, segments_cons_some found, fill_hole,
                drop_hole, text]

theorem gsub_holes (closes : marks.closing ≠ []) (value : Text → Text) (s : Text) :
    gsub ⟨false, holeItems marks⟩ (fun found => value (found.text 0)) s
      = fill value (segments marks s) :=
  gsubFrom_holes closes value (p := .first s) (Nat.lt_succ_self _)

end Filling

end Qwe.Holes
