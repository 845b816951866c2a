import Mathlib.Tactic.Common

/-!
# Machines driven from outside

A deterministic machine that takes one input per step and may refuse to go on.
`Run allowed` collects the finite runs in which every input was allowed in the
state it met; an invariant needs one step lemma.
-/

set_option autoImplicit false

namespace Qwe

universe u v

structure Machine (σ : Type u) (ι : Type v) where
  init : σ
  step : σ → ι → Option σ

namespace Machine

variable {σ : Type u} {ι : Type v} {M : Machine σ ι} {allowed : σ → ι → Prop}

inductive Run (M : Machine σ ι) (allowed : σ → ι → Prop) (start : σ) : σ → Prop where
  | refl : Run M allowed start start
  | tail {middle last : σ} (run : Run M allowed start middle) (input : ι)
      (ok : allowed middle input) (moved : M.step middle input = some last) :
      Run M allowed start last

def Reachable (M : Machine σ ι) (allowed : σ → ι → Prop) (s : σ) : Prop :=
  M.Run allowed M.init s

/-- The inputs are not restricted. -/
def Any (_ : σ) (_ : ι) : Prop := True

theorem Run.preserves {P : σ → Prop} {start last : σ}
    (keeps : ∀ s input t, P s → allowed s input → M.step s input = some t → P t)
    (holds : P start) (run : M.Run allowed start last) : P last := by
  induction run with
  | refl => exact holds
  | tail run input ok moved ih => exact keeps _ input _ ih ok moved

theorem Reachable.invariant {P : σ → Prop} {s : σ} (base : P M.init)
    (keeps : ∀ s input t, P s → allowed s input → M.step s input = some t → P t)
    (reachable : M.Reachable allowed s) : P s :=
  Run.preserves keeps base reachable

/-- An invariant whose step rests on the state being reachable. -/
theorem Reachable.along {P : σ → Prop} {s : σ} (base : P M.init)
    (keeps : ∀ s input t, M.Reachable allowed s → P s → allowed s input →
      M.step s input = some t → P t)
    (reachable : M.Reachable allowed s) : P s := by
  induction reachable with
  | refl => exact base
  | tail run input ok moved ih => exact keeps _ input _ run ih ok moved

theorem Run.trans {s t u : σ} (first : M.Run allowed s t) (second : M.Run allowed t u) :
    M.Run allowed s u := by
  induction second with
  | refl => exact first
  | tail run input ok moved ih => exact .tail ih input ok moved

theorem Reachable.run {s t : σ} (reachable : M.Reachable allowed s)
    (run : M.Run allowed s t) : M.Reachable allowed t :=
  Run.trans reachable run

/-- Feeding a list of inputs, as long as each passes the check. -/
def replay (M : Machine σ ι) (check : σ → ι → Bool) : List ι → σ → Option σ
  | [], s => some s
  | input :: inputs, s =>
      if check s input then (M.step s input).bind (M.replay check inputs) else none

theorem run_of_replay (check : σ → ι → Bool)
    (sound : ∀ s input, check s input = true → allowed s input) (inputs : List ι) {s t : σ}
    (replayed : M.replay check inputs s = some t) : M.Run allowed s t := by
  induction inputs generalizing s with
  | nil =>
      cases Option.some.inj replayed
      exact .refl
  | cons input inputs ih =>
      simp only [replay] at replayed
      split at replayed
      · rename_i passed
        obtain ⟨middle, moved, later⟩ := Option.bind_eq_some_iff.mp replayed
        exact Run.trans (.tail .refl input (sound s input passed) moved) (ih later)
      · contradiction

/-- A test on the state a replay leads to. -/
theorem exists_run_of_replay (check : σ → ι → Bool)
    (sound : ∀ s input, check s input = true → allowed s input) (inputs : List ι) {s : σ}
    (test : σ → Bool) (passes : (M.replay check inputs s).any test = true) :
    ∃ t, M.Run allowed s t ∧ test t = true := by
  obtain ⟨t, replayed, passed⟩ := (Option.any_eq_true ..).mp passes
  exact ⟨t, run_of_replay check sound inputs replayed, passed⟩

end Machine

end Qwe
