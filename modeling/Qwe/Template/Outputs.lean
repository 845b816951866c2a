import Qwe.Template.Accepted

/-!
# Where an output comes from

In an accepted job an id stands for one step, so what a later step reads as
`steps.ID.outputs.KEY` is what that step reported under `KEY`.
-/

set_option autoImplicit false

namespace Qwe.Template

open Qwe.Redact (Bytes)

/-! ## Storing -/

theorem lookup_keptOutputs (reported : Table Bytes Data) (key : Bytes) :
    (keptOutputs reported).lookup key = (reported.lookup key).bind Data.scalar? := by
  rw [keptOutputs, Table.lookup_putSome, AList.lookup_empty, Option.or_none]

theorem lookup_of_isEmpty {α : Type} {table : Table Bytes α} (empty : table.entries.isEmpty = true)
    (key : Bytes) : table.lookup key = none := by
  rw [List.isEmpty_iff] at empty
  rw [AList.lookup, empty, List.dlookup_nil]

variable {plugins : Plugins} {outputs : Outputs} {step : Resolved} {reported : Table Bytes Data}
  {id : Bytes}

theorem store_outputs :
    (store plugins outputs step reported).outputs
      = if (keptOutputs reported).entries.isEmpty then outputs
        else
          match step.id with
          | some id => outputs.insert id (keptOutputs reported)
          | none => outputs := by
  by_cases empty : (keptOutputs reported).entries.isEmpty = true
  · rw [if_pos empty]
    exact congrArg Stored.outputs (if_pos empty)
  · rw [if_neg empty]
    exact congrArg Stored.outputs (if_neg empty)

theorem outputAt_store_other (other : step.id ≠ some id) (key : Bytes) :
    outputAt (store plugins outputs step reported).outputs id key = outputAt outputs id key := by
  rw [store_outputs]
  split_ifs with empty
  · rfl
  · cases own : step.id with
    | none => rfl
    | some name =>
        have apart : id ≠ name := by
          rintro rfl
          exact other own
        simp only [outputAt, AList.lookup_insert_ne apart]

theorem outputAt_store_own (own : step.id = some id) {key : Bytes}
    (absent : outputAt outputs id key = none) :
    outputAt (store plugins outputs step reported).outputs id key
      = (reported.lookup key).bind Data.scalar? := by
  rw [← lookup_keptOutputs, store_outputs]
  split_ifs with empty
  · rw [absent, lookup_of_isEmpty empty]
  · simp only [outputAt, own, AList.lookup_insert, Option.bind_some]

/-! ## The outputs of an accepted job -/

section Job

variable {project : Project} {jobId : Bytes} {job : Job} (session : Session) (run : Run)
  (accepted : JobAccepted project.workflow project.inventory project.plugins jobId job)

include accepted

theorem resolvedWith_id {i : Nat} {step : Step} (at_i : job.steps[i]? = some step)
    {outputs : Outputs} {resolved : Resolved}
    (prepared : resolvedWith project session run jobId job outputs i step = some resolved) :
    resolved.id = step.id := by
  rw [resolve_id prepared]
  cases own : step.id with
  | none => rfl
  | some id => rw [Option.map_some, substituted_plain (accepted.stepId_plain at_i own)]

omit accepted in
/-- The step before has started, and its outputs have been stored. -/
theorem outputsBefore_succ {i : Nat} {outputs : Outputs}
    (reached : outputsBefore project session run jobId job (i + 1) = some outputs) :
    ∃ before, outputsBefore project session run jobId job i = some before ∧
      ((job.steps[i]? = none ∧ outputs = before) ∨ ∃ step resolved, job.steps[i]? = some step ∧
        resolvedWith project session run jobId job before i step = some resolved ∧
        outputs = (store project.plugins before resolved (received run jobId job i step)).outputs) := by
  rw [outputsBefore] at reached
  cases at_i : job.steps[i]? with
  | none =>
      rw [at_i] at reached
      exact ⟨outputs, reached, .inl ⟨rfl, rfl⟩⟩
  | some step =>
      rw [at_i] at reached
      obtain ⟨before, earlier, reached⟩ := Option.bind_eq_some_iff.mp reached
      obtain ⟨resolved, prepared, stored⟩ := Option.bind_eq_some_iff.mp reached
      exact ⟨before, earlier, .inr ⟨step, resolved, rfl, prepared, (Option.some.inj stored).symm⟩⟩

/-- Nothing is stored under an id that no earlier step has. -/
theorem outputAt_absent (id key : Bytes) : ∀ {i : Nat} {outputs : Outputs},
    outputsBefore project session run jobId job i = some outputs →
    (∀ m earlier, m < i → job.steps[m]? = some earlier → earlier.id ≠ some id) →
      outputAt outputs id key = none
  | 0, outputs, reached, _ => by
      obtain rfl := Option.some.inj reached
      rfl
  | i + 1, outputs, reached, none_has => by
      obtain ⟨before, earlier, last⟩ := outputsBefore_succ session run reached
      have absent := outputAt_absent id key earlier fun m earlier less =>
        none_has m earlier (Nat.lt_succ_of_lt less)
      rcases last with ⟨-, rfl⟩ | ⟨step, resolved, at_i, prepared, rfl⟩
      · exact absent
      · have other := none_has i step (Nat.lt_succ_self i) at_i
        rw [← resolvedWith_id session run accepted at_i prepared] at other
        exact (outputAt_store_other other key).trans absent

/-- Under the id of an earlier step stands what that step reported. -/
theorem outputAt_reported {m : Nat} {earlier : Step} (at_m : job.steps[m]? = some earlier)
    {id : Bytes} (has : earlier.id = some id) (key : Bytes) : ∀ {i : Nat} {outputs : Outputs},
      outputsBefore project session run jobId job i = some outputs → m < i →
      outputAt outputs id key = ((received run jobId job m earlier).lookup key).bind Data.scalar?
  | i + 1, outputs, reached, less => by
      obtain ⟨before, reachedBefore, last⟩ := outputsBefore_succ session run reached
      rcases Nat.lt_succ_iff_lt_or_eq.mp less with older | rfl
      · have stored := outputAt_reported at_m has key reachedBefore older
        rcases last with ⟨-, rfl⟩ | ⟨step, resolved, at_i, prepared, rfl⟩
        · exact stored
        · have other : step.id ≠ some id := fun again =>
            absurd (accepted.stepId_unique at_m at_i has again) (Nat.ne_of_lt older)
          rw [← resolvedWith_id session run accepted at_i prepared] at other
          exact (outputAt_store_other other key).trans stored
      · have fresh := outputAt_absent session run accepted id key reachedBefore
          fun k step less at_k again =>
            absurd (accepted.stepId_unique at_k at_m again has) (Nat.ne_of_lt less)
        rcases last with ⟨past, -⟩ | ⟨step, resolved, at_i, prepared, rfl⟩
        · rw [at_m] at past
          cases past
        · rw [at_m] at at_i
          obtain rfl := Option.some.inj at_i
          rw [← resolvedWith_id session run accepted at_m prepared] at has
          exact outputAt_store_own has fresh

end Job

end Qwe.Template
