import Mathlib.Algebra.GroupWithZero.Nat
import Mathlib.Data.List.Basic

/-!
# Counting the entries of a list by place and value
-/

set_option autoImplicit false

namespace Qwe.Counting

universe u v

variable {α : Type u} {β : Type v}

/-- How many entries satisfy `p`, which also sees the entry's place. -/
def countAt (p : Nat → α → Bool) (xs : List α) : Nat := (xs.mapIdx p).countP id

theorem countAt_mapIdx (p : Nat → β → Bool) (f : Nat → α → β) (xs : List α) :
    countAt p (xs.mapIdx f) = countAt (fun i x => p i (f i x)) xs := by
  rw [countAt, countAt, List.mapIdx_mapIdx]
  rfl

theorem countP_eq_countAt (p : α → Bool) (xs : List α) :
    xs.countP p = countAt (fun _ x => p x) xs := by
  rw [countAt, List.mapIdx_eq_zipIdx_map, List.countP_map]
  conv_lhs => rw [← List.zipIdx_map_fst 0 xs, List.countP_map]
  rfl

theorem countAt_mono {p q : Nat → α → Bool} {xs : List α}
    (imp : ∀ i x, xs[i]? = some x → p i x = true → q i x = true) :
    countAt p xs ≤ countAt q xs := by
  rw [countAt, countAt, List.mapIdx_eq_zipIdx_map, List.mapIdx_eq_zipIdx_map, List.countP_map,
    List.countP_map]
  refine List.countP_mono_left ?_
  rintro ⟨x, i⟩ member holds
  exact imp i x (List.mem_zipIdx_iff_getElem?.mp member) holds

/-- Replacing one entry adds at most one, and only if the new entry counts and the
old one did not. -/
theorem countAt_set_le {p : Nat → α → Bool} {xs : List α} {i : Nat} {x y : α}
    (here : xs[i]? = some x) {extra : Nat}
    (counts : p i y = true → p i x = true ∨ extra = 1) :
    countAt p (xs.set i y) ≤ countAt p xs + extra := by
  obtain ⟨inRange, rfl⟩ := List.getElem?_eq_some_iff.mp here
  have bound : i < (xs.mapIdx p).length := by simpa using inRange
  have old : p i xs[i] = true → 0 < (xs.mapIdx p).countP id := by
    intro counted
    refine List.countP_pos_iff.mpr ⟨true, ?_, rfl⟩
    refine List.mem_iff_getElem.mpr ⟨i, bound, ?_⟩
    simpa using counted
  rw [countAt, countAt, List.mapIdx_set, List.countP_set bound, List.getElem_mapIdx]
  simp only [id_eq]
  by_cases new : p i y = true
  · rw [if_pos new]
    rcases counts new with was | one
    · have := old was
      rw [if_pos was]
      omega
    · omega
  · rw [if_neg new]
    omega

/-- One entry of a list becomes smaller, so the whole does. -/
theorem sum_set_lt (f : α → Nat) {xs : List α} {i : Nat} {x y : α}
    (here : xs[i]? = some x) (lower : f y < f x) :
    ((xs.set i y).map f).sum < (xs.map f).sum := by
  induction xs generalizing i with
  | nil => simp at here
  | cons z xs ih =>
      cases i with
      | zero =>
          obtain rfl : z = x := by simpa using here
          simpa using lower
      | succ i =>
          have rest := ih (i := i) (by simpa using here)
          simpa using rest

end Qwe.Counting
