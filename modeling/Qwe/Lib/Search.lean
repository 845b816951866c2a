import Mathlib.Data.List.Sort

/-!
# Sorting and searching through a comparison

What C's `qsort` and `bsearch` promise.  `qsort` returns its elements in an order
that is ascending if the comparison is consistent on them; it says nothing about
the order of elements that compare equal, and nothing at all about an
inconsistent comparison.  `bsearch` halves a window.
-/

set_option autoImplicit false

namespace Qwe.Search

universe u

variable {α : Type u}

/-- `cmp` orders the elements: what is not above is never above by a detour. -/
def Consistent (cmp : α → α → Ordering) (xs : List α) : Prop :=
  ∀ a ∈ xs, ∀ b ∈ xs, ∀ c ∈ xs, cmp a b ≠ .gt → cmp b c ≠ .gt → cmp a c ≠ .gt

/-- `ys` is what `qsort` may leave of `xs`. -/
def Sorts (cmp : α → α → Ordering) (xs ys : List α) : Prop :=
  ys.Perm xs ∧ (Consistent cmp xs → ys.Pairwise fun a b => cmp a b ≠ .gt)

/-- The first element that is found comes before every other one that could be. -/
theorem first_of_find {R : α → α → Prop} (reflexive : ∀ x, R x x) {xs : List α}
    (ordered : xs.Pairwise R) {p : α → Bool} {x : α} (found : xs.find? p = some x) :
    ∀ y ∈ xs, p y = true → R x y := by
  intro y member hit
  obtain ⟨_, before, after, rfl, missed⟩ := List.find?_eq_some_iff_append.mp found
  rcases List.mem_append.mp member with early | late
  · have miss := missed y early
    rw [hit] at miss
    cases miss
  · rcases List.mem_cons.mp late with rfl | later
    · exact reflexive y
    · exact (List.pairwise_cons.mp (List.pairwise_append.mp ordered).2.1).1 y later

/-- The window `[lo, hi)` of `bsearch`; `order` compares the key with an element. -/
def bsearchIn (order : α → Ordering) (xs : List α) (lo hi : Nat) : Option α :=
  if lo < hi then
    match xs[(lo + hi) / 2]? with
    | none => none
    | some x =>
        match order x with
        | .lt => bsearchIn order xs lo ((lo + hi) / 2)
        | .gt => bsearchIn order xs ((lo + hi) / 2 + 1) hi
        | .eq => some x
  else none
termination_by hi - lo

def bsearch (order : α → Ordering) (xs : List α) : Option α :=
  bsearchIn order xs 0 xs.length

/-- The key is above a first part of the elements and below a last part. -/
def Ascending (order : α → Ordering) (xs : List α) : Prop :=
  xs.Pairwise fun a b => (order a = .lt → order b = .lt) ∧ (order b = .gt → order a = .gt)

theorem bsearchIn_sound {order : α → Ordering} {xs : List α} {lo hi : Nat} {x : α}
    (found : bsearchIn order xs lo hi = some x) : x ∈ xs ∧ order x = .eq := by
  induction lo, hi using bsearchIn.induct order xs with
  | case1 lo hi open_ absent =>
      rw [bsearchIn, if_pos open_, absent] at found
      cases found
  | case2 lo hi open_ y here below inductionHypothesis =>
      rw [bsearchIn, if_pos open_, here] at found
      simp only [below] at found
      exact inductionHypothesis found
  | case3 lo hi open_ y here above inductionHypothesis =>
      rw [bsearchIn, if_pos open_, here] at found
      simp only [above] at found
      exact inductionHypothesis found
  | case4 lo hi open_ y here equal =>
      rw [bsearchIn, if_pos open_, here] at found
      simp only [equal] at found
      cases found
      exact ⟨List.mem_of_getElem? here, equal⟩
  | case5 lo hi closed =>
      rw [bsearchIn, if_neg closed] at found
      cases found

/-- In ascending elements a window that holds the key's place is searched to it. -/
theorem bsearchIn_complete {order : α → Ordering} {xs : List α} (ascending : Ascending order xs)
    {lo hi k : Nat} {x : α} (above_lo : lo ≤ k) (below_hi : k < hi) (fits : hi ≤ xs.length)
    (at_k : xs[k]? = some x) (equal : order x = .eq) :
    (bsearchIn order xs lo hi).isSome := by
  obtain ⟨inside, rfl⟩ := List.getElem?_eq_some_iff.mp at_k
  rw [Ascending, List.pairwise_iff_getElem] at ascending
  induction lo, hi using bsearchIn.induct order xs with
  | case1 lo hi open_ absent =>
      rw [List.getElem?_eq_none_iff] at absent
      omega
  | case2 lo hi open_ y here below inductionHypothesis =>
      obtain ⟨bound, rfl⟩ := List.getElem?_eq_some_iff.mp here
      rw [bsearchIn, if_pos open_, here]
      simp only [below]
      apply inductionHypothesis above_lo ?_ (by omega)
      by_contra late
      rcases Nat.eq_or_lt_of_le (not_lt.mp late) with same | after
      · simp only [same, equal] at below
        cases below
      · have lower := (ascending _ _ bound inside after).1 below
        rw [equal] at lower
        cases lower
  | case3 lo hi open_ y here above inductionHypothesis =>
      obtain ⟨bound, rfl⟩ := List.getElem?_eq_some_iff.mp here
      rw [bsearchIn, if_pos open_, here]
      simp only [above]
      apply inductionHypothesis ?_ below_hi fits
      by_contra early
      rcases Nat.eq_or_lt_of_le (Nat.lt_succ_iff.mp (not_le.mp early)) with same | before
      · simp only [← same, equal] at above
        cases above
      · have higher := (ascending _ _ inside bound before).2 above
        rw [equal] at higher
        cases higher
  | case4 lo hi open_ y here same =>
      rw [bsearchIn, if_pos open_, here]
      simp only [same]
      rfl
  | case5 lo hi closed => omega

theorem mem_of_bsearch {order : α → Ordering} {xs : List α} {x : α}
    (found : bsearch order xs = some x) : x ∈ xs ∧ order x = .eq :=
  bsearchIn_sound found

theorem bsearch_isSome {order : α → Ordering} {xs : List α} (ascending : Ascending order xs)
    {x : α} (member : x ∈ xs) (equal : order x = .eq) : (bsearch order xs).isSome := by
  obtain ⟨k, at_k⟩ := List.mem_iff_getElem?.mp member
  have bound : k < xs.length := (List.getElem?_eq_some_iff.mp at_k).1
  exact bsearchIn_complete ascending (Nat.zero_le k) bound (Nat.le_refl _) at_k equal

end Qwe.Search
