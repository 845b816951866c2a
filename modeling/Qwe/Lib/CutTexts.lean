import Mathlib.Data.List.Basic

/-!
# Texts that end at a mark

A text is put together from pieces and read up to its first `stop`, as C reads a
string.  What is read depends on the pieces that begin before the mark, and on
no others.
-/

set_option autoImplicit false

namespace Qwe.CutTexts

variable {α ι : Type} [DecidableEq α] (stop : α)

/-- The part of a text before the first `stop`. -/
def cut (text : List α) : List α := text.takeWhile (· != stop)

variable {stop}

theorem cut_append (s t : List α) :
    cut stop (s ++ t) = if stop ∈ s then cut stop s else s ++ cut stop t := by
  induction s with
  | nil => rfl
  | cons a s inductionHypothesis =>
      rw [cut] at inductionHypothesis
      by_cases here : a = stop
      · rw [if_pos (by rw [here]; exact List.mem_cons_self), cut, cut, List.cons_append,
          List.takeWhile_cons_of_neg (by simp [here]), List.takeWhile_cons_of_neg (by simp [here])]
      · have later : stop ∈ a :: s ↔ stop ∈ s := by
          rw [List.mem_cons, or_iff_right (fun same => here same.symm)]
        rw [cut, cut, List.cons_append, List.takeWhile_cons_of_pos (by simpa using here),
          List.takeWhile_cons_of_pos (by simpa using here), inductionHypothesis]
        split_ifs with inside inside' inside'
        · rfl
        · exact absurd (later.mpr inside) inside'
        · exact absurd (later.mp inside') inside
        · rfl

theorem cut_append_clean {s : List α} (clean : stop ∉ s) (t : List α) :
    cut stop (s ++ t) = s ++ cut stop t := by
  rw [cut_append, if_neg clean]

theorem cut_append_stopped {s : List α} (stopped : stop ∈ s) (t : List α) :
    cut stop (s ++ t) = cut stop s := by
  rw [cut_append, if_pos stopped]

/-! ## The pieces that are read -/

/-- The pieces that begin before the first `stop`. -/
def shown (stop : α) (value : ι → List α) : List ι → List ι
  | [] => []
  | piece :: rest => piece :: if stop ∈ value piece then [] else shown stop value rest

variable {f g base : ι → List α}

theorem mem_of_mem_shown {value : ι → List α} {pieces : List ι} {piece : ι}
    (present : piece ∈ shown stop value pieces) : piece ∈ pieces := by
  induction pieces with
  | nil => cases present
  | cons first rest inductionHypothesis =>
      rw [shown, List.mem_cons] at present
      rcases present with rfl | later
      · exact List.mem_cons_self
      · split_ifs at later
        · cases later
        · exact List.mem_cons_of_mem _ (inductionHypothesis later)

/-- Two texts that agree in the pieces shown are read alike, and end alike. -/
theorem cut_congr {pieces : List ι} (agree : ∀ piece ∈ shown stop f pieces, f piece = g piece) :
    cut stop (pieces.flatMap f) = cut stop (pieces.flatMap g) ∧
      (stop ∈ pieces.flatMap f ↔ stop ∈ pieces.flatMap g) := by
  induction pieces with
  | nil => exact ⟨rfl, Iff.rfl⟩
  | cons piece rest inductionHypothesis =>
      rw [shown, List.forall_mem_cons] at agree
      rw [List.flatMap_cons, List.flatMap_cons, ← agree.1]
      by_cases stopped : stop ∈ f piece
      · rw [cut_append_stopped stopped, cut_append_stopped stopped]
        exact ⟨rfl, iff_of_true (List.mem_append_left _ stopped) (List.mem_append_left _ stopped)⟩
      · rw [if_neg stopped] at agree
        obtain ⟨same, ends⟩ := inductionHypothesis agree.2
        rw [cut_append_clean stopped, cut_append_clean stopped, same, List.mem_append,
          List.mem_append, ends]
        exact ⟨rfl, Iff.rfl⟩

/-- A text gets no shorter where pieces without a `stop` take the place of empty ones. -/
theorem cut_length_le {pieces : List ι}
    (each : ∀ piece ∈ pieces, f piece = g piece ∨ f piece = [] ∧ stop ∉ g piece) :
    (cut stop (pieces.flatMap f)).length ≤ (cut stop (pieces.flatMap g)).length := by
  induction pieces with
  | nil => exact Nat.le_refl _
  | cons piece rest inductionHypothesis =>
      rw [List.forall_mem_cons] at each
      have tail := inductionHypothesis each.2
      rw [List.flatMap_cons, List.flatMap_cons]
      rcases each.1 with same | ⟨empty, clean⟩
      · rw [same]
        by_cases stopped : stop ∈ g piece
        · simp only [cut_append_stopped stopped, Nat.le_refl]
        · rw [cut_append_clean stopped, cut_append_clean stopped, List.length_append,
            List.length_append]
          exact Nat.add_le_add_left tail _
      · rw [empty, List.nil_append, cut_append_clean clean, List.length_append]
        exact Nat.le_add_left_of_le tail

/-- A piece that is shown and grows makes the text longer, when only pieces that grow like it
are changed. -/
theorem cut_length_lt {pieces : List ι} (changed : ι → Prop)
    (same : ∀ piece ∈ pieces, ¬ changed piece → f piece = base piece ∧ g piece = base piece)
    (grows : ∀ piece ∈ pieces, changed piece → f piece = [] ∧ stop ∉ g piece ∧ g piece ≠ [])
    {piece : ι} (present : piece ∈ shown stop base pieces) (here : changed piece) :
    (cut stop (pieces.flatMap f)).length < (cut stop (pieces.flatMap g)).length := by
  induction pieces with
  | nil => cases present
  | cons first rest inductionHypothesis =>
      rw [List.forall_mem_cons] at same grows
      rw [List.flatMap_cons, List.flatMap_cons]
      by_cases now : changed first
      · obtain ⟨empty, clean, nonempty⟩ := grows.1 now
        have tail : (cut stop (rest.flatMap f)).length ≤ (cut stop (rest.flatMap g)).length := by
          refine cut_length_le fun other listed => ?_
          by_cases also : changed other
          · obtain ⟨empty, clean, -⟩ := grows.2 other listed also
            exact .inr ⟨empty, clean⟩
          · obtain ⟨left, right⟩ := same.2 other listed also
            exact .inl (left.trans right.symm)
        rw [empty, List.nil_append, cut_append_clean clean, List.length_append]
        have longer := List.length_pos_of_ne_nil nonempty
        omega
      · obtain ⟨left, right⟩ := same.1 now
        rw [left, right]
        rw [shown, List.mem_cons] at present
        rcases present with rfl | later
        · exact absurd here now
        · split_ifs at later with stopped
          · cases later
          · have tail := inductionHypothesis same.2 grows.2 later
            rw [cut_append_clean stopped, cut_append_clean stopped, List.length_append,
              List.length_append]
            exact Nat.add_lt_add_left tail _

end Qwe.CutTexts
