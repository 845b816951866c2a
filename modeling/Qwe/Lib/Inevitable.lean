import Qwe.Lib.Machine

/-!
# What a machine must come to

`Inevitable goal n s`: from `s` the machine meets the goal within `n` steps, whatever
its inputs are, and refuses none of them before.  A loop of the machine ends when
leaving it is inevitable; the rules prove that from a number that every step lowers.
-/

set_option autoImplicit false

namespace Qwe.Machine

universe u v

variable {σ : Type u} {ι : Type v} {M : Machine σ ι} {goal : σ → Prop}

def Inevitable (M : Machine σ ι) (goal : σ → Prop) : Nat → σ → Prop
  | 0, s => goal s
  | n + 1, s => goal s ∨ ∀ input, ∃ t, M.step s input = some t ∧ M.Inevitable goal n t

theorem Inevitable.of_goal {s : σ} (met : goal s) (n : Nat) : M.Inevitable goal n s := by
  cases n with
  | zero => exact met
  | succ n => exact Or.inl met

theorem Inevitable.mono {n m : Nat} (le : n ≤ m) {s : σ} (inevitable : M.Inevitable goal n s) :
    M.Inevitable goal m s := by
  induction n generalizing m s with
  | zero => exact .of_goal inevitable m
  | succ n inductionHypothesis =>
      obtain ⟨m, rfl⟩ : ∃ k, m = k + 1 := ⟨m - 1, by omega⟩
      rcases inevitable with met | next
      · exact .of_goal met (m + 1)
      · refine Or.inr fun input => ?_
        obtain ⟨t, moved, later⟩ := next input
        exact ⟨t, moved, inductionHypothesis (Nat.le_of_succ_le_succ le) later⟩

/-- Every step from a state of the loop lowers the measure and stays in the loop,
or leaves it. -/
theorem inevitable_of_measure [Nonempty ι] (inv : σ → Prop) (measure : σ → Nat)
    (advances : ∀ s, inv s → ¬ goal s → ∀ input,
      ∃ t, M.step s input = some t ∧ inv t ∧ measure t < measure s)
    {s : σ} (holds : inv s) : M.Inevitable goal (measure s) s := by
  have bounded : ∀ n s, inv s → measure s ≤ n → M.Inevitable goal n s := by
    intro n
    induction n with
    | zero =>
        intro s holds small
        by_contra unmet
        obtain ⟨t, _, _, lower⟩ := advances s holds unmet (Classical.arbitrary ι)
        omega
    | succ n inductionHypothesis =>
        intro s holds small
        by_cases met : goal s
        · exact .of_goal met (n + 1)
        · refine Or.inr fun input => ?_
          obtain ⟨t, moved, holds', lower⟩ := advances s holds met input
          exact ⟨t, moved, inductionHypothesis t holds' (by omega)⟩
  exact bounded _ s holds (Nat.le_refl _)

/-- A measure of two parts: what is left to do, and the place on the way to doing the
next of it. -/
theorem inevitable_of_rank [Nonempty ι] (inv : σ → Prop) (rank place : σ → Nat) {size : Nat}
    (small : ∀ s, inv s → place s < size)
    (advances : ∀ s, inv s → ¬ goal s → ∀ input, ∃ t, M.step s input = some t ∧ inv t ∧
      (rank t < rank s ∨ rank t = rank s ∧ place t < place s))
    {s : σ} (holds : inv s) : M.Inevitable goal (rank s * size + place s) s := by
  refine inevitable_of_measure inv (fun s => rank s * size + place s) ?_ holds
  intro s holds unmet input
  obtain ⟨t, moved, holds', lower | ⟨same, lower⟩⟩ := advances s holds unmet input
  · refine ⟨t, moved, holds', ?_⟩
    have later := small t holds'
    have scaled : (rank t + 1) * size ≤ rank s * size := Nat.mul_le_mul_right size lower
    rw [Nat.add_mul, Nat.one_mul] at scaled
    omega
  · exact ⟨t, moved, holds', by simp only [same]; omega⟩

end Qwe.Machine
