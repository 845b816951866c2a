import Mathlib.Data.Fintype.Order
import Mathlib.Logic.Relation
import Mathlib.Order.WellFounded

/-!
# Finite graphs without cycles

A relation on finitely many points in which no point reaches itself: every
property that some point has is one that a point has whose successors lack it.
-/

set_option autoImplicit false

namespace Qwe.Graph

open Relation

universe u

variable {α : Type u} {edge : α → α → Prop}

theorem wellFounded_of_acyclic [Finite α] (acyclic : ∀ a, ¬ TransGen edge a a) :
    WellFounded fun b a => TransGen edge a b := by
  have trans : IsTrans α fun b a => TransGen edge a b := ⟨fun _ _ _ first second => second.trans first⟩
  have irrefl : Std.Irrefl fun b a => TransGen edge a b := ⟨acyclic⟩
  exact Finite.wellFounded_of_trans_of_irrefl _

/-- Edges that stay among the first `n` numbers. -/
theorem exists_last_below {edge : Nat → Nat → Prop} {n : Nat}
    (acyclic : ∀ i, ¬ TransGen edge i i) {P : Nat → Prop} {i : Nat} (below : i < n) (holds : P i) :
    ∃ m < n, P m ∧ ∀ k < n, edge m k → ¬ P k := by
  have lift : ∀ {a b : Fin n}, TransGen (fun a b : Fin n => edge a b) a b →
      TransGen edge a b := by
    intro a b path
    induction path with
    | single step => exact .single step
    | tail _ step ih => exact ih.tail step
  have wf : WellFounded fun b a : Fin n => TransGen (fun a b : Fin n => edge a b) a b :=
    wellFounded_of_acyclic fun a path => acyclic a (lift path)
  obtain ⟨m, mem, last⟩ := wf.has_min {a : Fin n | P a} ⟨⟨i, below⟩, holds⟩
  refine ⟨m, m.isLt, mem, fun k inRange step other => ?_⟩
  exact last ⟨k, inRange⟩ other (.single step)

end Qwe.Graph
