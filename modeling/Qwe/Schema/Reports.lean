import Qwe.Schema.Raises

/-!
# What validation of an inventory reports

The rules of an inventory, said of its places: the schema, the envelopes, and the
names of secrets, vars and targets.  A list that `validate` returns is empty only if
no rule is broken.
-/

set_option autoImplicit false

namespace Qwe.Schema

open Qwe.Redact (Bytes)
open Qwe.Template (bytes esc isName quoted Problem Place decimalNat bytesLe)

/-- The path leads from the root to the value. -/
inductive Doc.At (root : Doc) : List Token → Doc → Prop where
  | root : Doc.At root [] root
  | item {path : List Token} {items : List Doc} {i : Nat} {d : Doc}
      (parent : Doc.At root path (.array items)) (here : items[i]? = some d) :
      Doc.At root (path ++ [.index i]) d
  | entry {path : List Token} {fields : List (Bytes × Doc)} {key : Bytes} {d : Doc}
      (parent : Doc.At root path (.map fields)) (here : (key, d) ∈ fields) :
      Doc.At root (path ++ [.key key]) d

/-- A `secrets:` map: the inventory's or a target's. -/
def IsSecretMap (inv m : Doc) : Prop :=
  inv.field "secrets" = some m ∨ ∃ t ∈ targetsOf inv, t.2.field "secrets" = some m

section Rules
variable (secretsCheck : Bytes → Option Bytes) (inv : Doc)

/-- A rule that the inventory breaks. -/
inductive Violated : Prop where
  | schema (invalid : outputs inventorySchema [] [] [] inv ≠ [])
  /-- An envelope stands where none is allowed. -/
  | misplaced {path : List Token} {s : Bytes} (here : inv.At path (.secret s))
      (outside : allowed path = false)
  | secretName {m d : Doc} {name : Bytes} (secrets : IsSecretMap inv m)
      (entry : (.name name, d) ∈ m.pairs) (bad : isName name = false)
  /-- An entry of a `secrets:` map is not an envelope. -/
  | secretValue {m d : Doc} {key : Key} (secrets : IsSecretMap inv m)
      (entry : (key, d) ∈ m.pairs) (bad : ∀ s, d = .secret s → secretsCheck s ≠ none)
  | varName {t : Key × Doc} {vars d : Doc} {name : Bytes} (target : t ∈ targetsOf inv)
      (declared : t.2.field "vars" = some vars) (entry : (.name name, d) ∈ vars.pairs)
      (bad : isName name = false)
  | localTarget (defined : ((inv.field "targets").bind (Doc.field "local")).isSome)

end Rules

/-! ## Envelopes -/

theorem mem_inKeyOrder {found : List (Bytes × List Bytes)} {pointer : Bytes} :
    pointer ∈ inKeyOrder found ↔ ∃ entry ∈ found, pointer ∈ entry.2 := by
  rw [inKeyOrder, List.mem_flatMap]
  simp only [List.mem_insertionSort]

theorem mem_outsideItems {tokens : List Token} {pointer : Bytes} (i : Nat) {items : List Doc}
    {j : Nat} {d : Doc} (here : items[j]? = some d) :
    outside (tokens ++ [.index (i + j)]) (pointer ++ bytes "/" ++ decimalNat (i + j)) d
      ⊆ outsideItems tokens pointer i items := by
  induction items generalizing i j with
  | nil => cases here
  | cons item rest inductionHypothesis =>
      rw [outsideItems]
      cases j with
      | zero =>
          cases here
          exact List.subset_append_left _ _
      | succ j =>
          have later := inductionHypothesis (i + 1) here
          have same : i + 1 + j = i + (j + 1) := by omega
          rw [same] at later
          exact List.subset_append_of_subset_right _ later

theorem mem_outsideFields {tokens : List Token} {pointer : Bytes} {fields : List (Bytes × Doc)}
    {key : Bytes} {d : Doc} (here : (key, d) ∈ fields) :
    (key, outside (tokens ++ [.key key]) (pointer ++ bytes "/" ++ esc key) d)
      ∈ outsideFields tokens pointer fields := by
  induction fields with
  | nil => cases here
  | cons entry rest inductionHypothesis =>
      obtain ⟨other, item⟩ := entry
      rw [outsideFields]
      rcases List.mem_cons.mp here with same | later
      · cases same
        exact List.mem_cons_self
      · exact List.mem_cons_of_mem _ (inductionHypothesis later)

/-- What the walk finds at a place it finds from the root. -/
theorem outside_of_at {root d : Doc} {path : List Token} (here : root.At path d) :
    ∃ pointer, outside path pointer d ⊆ outside [] [] root := by
  induction here with
  | root => exact ⟨[], List.Subset.refl _⟩
  | @item path items i d parent here inductionHypothesis =>
      obtain ⟨pointer, above⟩ := inductionHypothesis
      have own : _ ⊆ outsideItems path pointer 0 items := mem_outsideItems 0 here
      rw [Nat.zero_add] at own
      exact ⟨_, List.Subset.trans own above⟩
  | @entry path fields key d parent here inductionHypothesis =>
      obtain ⟨pointer, above⟩ := inductionHypothesis
      refine ⟨pointer ++ bytes "/" ++ esc key, fun found inside => above ?_⟩
      rw [outside, mem_inKeyOrder]
      exact ⟨_, mem_outsideFields here, inside⟩

theorem envelopeErrors_of_misplaced {inv : Doc} {path : List Token} {s : Bytes}
    (here : inv.At path (.secret s)) (misplaced : allowed path = false) :
    envelopeErrors inv ≠ [] := by
  obtain ⟨pointer, above⟩ := outside_of_at here
  rw [outside, misplaced] at above
  have found : pointer ∈ outside [] [] inv := above (List.mem_singleton.mpr rfl)
  intro empty
  rw [List.map_eq_nil_iff.mp empty] at found
  cases found

/-! ## Names and values -/

theorem secretMapErrors_of_name {secretsCheck : Bytes → Option Bytes} {m d : Doc} {pointer : Bytes}
    {r : List Problem} (ran : secretMapErrors secretsCheck (some m) pointer = .ok r) {name : Bytes}
    (entry : (.name name, d) ∈ m.pairs) (bad : isName name = false) : r ≠ [] := by
  rintro rfl
  rw [secretMapErrors] at ran
  have own := mem_of_collect ran entry rfl
  rw [bad] at own
  exact absurd (own List.mem_cons_self) List.not_mem_nil

theorem secretMapErrors_of_value {secretsCheck : Bytes → Option Bytes} {m d : Doc} {pointer : Bytes}
    {r : List Problem} (ran : secretMapErrors secretsCheck (some m) pointer = .ok r) {key : Key}
    (entry : (key, d) ∈ m.pairs) (bad : ∀ s, d = .secret s → secretsCheck s ≠ none) : r ≠ [] := by
  rintro rfl
  rw [secretMapErrors] at ran
  obtain ⟨own, round⟩ := collect_ok_iff.mp ⟨[], ran⟩ _ entry
  have inside := mem_of_collect ran entry round
  obtain ⟨named, -, same⟩ := bind_eq_ok.mp round
  cases same
  have problem (location : Bytes) : envelopeProblem secretsCheck location d ≠ [] := by
    unfold envelopeProblem
    cases d with
    | secret s =>
        dsimp only
        cases why : secretsCheck s with
        | none => exact absurd why (bad s rfl)
        | some text => exact List.cons_ne_nil _ _
    | _ => exact List.cons_ne_nil _ _
  obtain ⟨p, present⟩ := List.exists_mem_of_ne_nil _ (problem (pointer ++ bytes "/" ++ esc key.text))
  exact absurd (inside (List.mem_append_right _ present)) List.not_mem_nil

theorem targetVarErrors_of_name {t : Key × Doc} {vars d : Doc} {r : List Problem}
    (ran : targetVarErrors t = .ok r) (declared : t.2.field "vars" = some vars) {name : Bytes}
    (entry : (.name name, d) ∈ vars.pairs) (bad : isName name = false) : r ≠ [] := by
  rintro rfl
  rw [targetVarErrors, declared] at ran
  have own := mem_of_collect ran entry rfl
  rw [bad] at own
  exact absurd (own List.mem_cons_self) List.not_mem_nil

/-! ## The schema -/

theorem speaks_inventorySchema : ∀ keyword ∈ inventorySchema, Speaks keyword := by
  have ofType (types : List JsonType) : ∀ keyword ∈ [type types], Speaks keyword := by
    simpa using speaks_type types
  have vars : ∀ keyword ∈ ref varsSchema, Speaks keyword := by
    apply speaks_ref
    simpa [varsSchema] using ⟨speaks_type _, speaks_additionalProperties (ofType _)⟩
  have target : ∀ keyword ∈ ref targetSchema, Speaks keyword := by
    apply speaks_ref
    have keys : Speaks (properties
        [("backend", [enum [bytes "ssh"]]), ("host", [type [.string], minLength 1]),
         ("max-sessions", [type [.integer], minimum 1]),
         ("disabled", [type [.string], minLength 1]), ("become-password", [type [.string]]),
         ("vars", ref varsSchema), ("secrets", [type [.object]])]) := by
      apply speaks_properties (by decide)
      simp only [List.forall_mem_cons]
      exact ⟨⟨speaks_enum _, by simp⟩, ⟨speaks_type _, speaks_minLength 1, by simp⟩,
        ⟨speaks_type _, speaks_minimum 1, by simp⟩, ⟨speaks_type _, speaks_minLength 1, by simp⟩,
        ⟨speaks_type _, by simp⟩, vars, ⟨speaks_type _, by simp⟩, by simp⟩
    have branches : Speaks (allOf
        [[if_ [properties [("backend", [const (bytes "ssh")])], required ["backend"]]
          [required ["host"]] []]]) := by
      apply speaks_allOf
      simpa using speaks_if (by simpa using speaks_required _) (by simp)
    simpa [targetSchema] using ⟨speaks_type _, speaks_required _,
      speaks_additionalProperties speaks_never, keys, branches⟩
  have keys : Speaks (properties
      [("secrets", [type [.object]]),
       ("targets", [type [.object], additionalProperties [] (ref targetSchema)])]) := by
    apply speaks_properties (by decide)
    simp only [List.forall_mem_cons]
    exact ⟨⟨speaks_type _, by simp⟩,
      ⟨speaks_type _, speaks_additionalProperties target, by simp⟩, by simp⟩
  simpa [inventorySchema] using ⟨speaks_type _, speaks_additionalProperties speaks_never, keys⟩

theorem exists_check {inv : Doc} (invalid : outputs inventorySchema [] [] [] inv ≠ []) :
    ∃ e, e ∈ check inventorySchema inv := by
  obtain ⟨o, inside, plain⟩ := speaks_outputs speaks_inventorySchema (by decide) invalid
  obtain ⟨e, described, -⟩ := describeLine_plain plain
  exact ⟨e, List.mem_filterMap.mpr ⟨o, inside, described⟩⟩

/-! ## The whole list -/

/-- A problem that a stage finds is in the list at the end. -/
theorem validate_parts {secretsCheck : Bytes → Option Bytes} {tostring : Option Doc → Bytes}
    {inv : Doc} {errors : List Problem} (ran : validate secretsCheck tostring inv = .ok errors) :
    ∃ reworded root secrets vars,
      collect (fun e => do return [← rewordBackend tostring inv (rewordDisabled e)])
        (check inventorySchema inv) = .ok reworded ∧
      secretMapErrors secretsCheck (inv.field "secrets") (bytes "/secrets") = .ok root ∧
      collect (targetSecretErrors secretsCheck) (targetsOf inv) = .ok secrets ∧
      collect targetVarErrors (targetsOf inv) = .ok vars ∧
      errors = envelopeErrors inv ++
        reworded.filter (fun e => !((envelopeErrors inv).map Problem.pointer).contains e.pointer) ++
        root ++ localErrors inv ++ secrets ++ vars := by
  unfold validate at ran
  obtain ⟨reworded, schema, ran⟩ := bind_eq_ok.mp ran
  obtain ⟨root, ranRoot, ran⟩ := bind_eq_ok.mp ran
  obtain ⟨secrets, ranSecrets, ran⟩ := bind_eq_ok.mp ran
  obtain ⟨vars, ranVars, same⟩ := bind_eq_ok.mp ran
  cases same
  exact ⟨reworded, root, secrets, vars, schema, ranRoot, ranSecrets, ranVars, rfl⟩

theorem secrets_reported {secretsCheck : Bytes → Option Bytes} {inv m : Doc}
    {root secrets : List Problem}
    (ranRoot : secretMapErrors secretsCheck (inv.field "secrets") (bytes "/secrets") = .ok root)
    (ranSecrets : collect (targetSecretErrors secretsCheck) (targetsOf inv) = .ok secrets)
    (isMap : IsSecretMap inv m)
    (fails : ∀ pointer r, secretMapErrors secretsCheck (some m) pointer = .ok r → r ≠ []) :
    root ≠ [] ∨ secrets ≠ [] := by
  rcases isMap with own | ⟨t, member, own⟩
  · rw [own] at ranRoot
    exact .inl (fails _ _ ranRoot)
  · obtain ⟨r, round⟩ := collect_ok_iff.mp ⟨secrets, ranSecrets⟩ t member
    have inside := mem_of_collect ranSecrets member round
    have table : t.2.isTable = true := by
      by_contra other
      rw [field_of_not_table (Bool.eq_false_iff.mpr other)] at own
      cases own
    rw [targetSecretErrors, if_pos table, own] at round
    obtain ⟨e, present⟩ := List.exists_mem_of_ne_nil _ (fails _ _ round)
    refine .inr fun empty => ?_
    rw [empty] at inside
    exact absurd (inside present) List.not_mem_nil

theorem errors_of_violated {secretsCheck : Bytes → Option Bytes} {tostring : Option Doc → Bytes}
    {inv : Doc} {errors : List Problem} (ran : validate secretsCheck tostring inv = .ok errors)
    (violated : Violated secretsCheck inv) : errors ≠ [] := by
  obtain ⟨reworded, root, secrets, vars, schema, ranRoot, ranSecrets, ranVars, rfl⟩ :=
    validate_parts ran
  simp only [ne_eq, List.append_eq_nil_iff, not_and_or]
  cases violated with
  | schema invalid =>
      obtain ⟨e, inside⟩ := exists_check invalid
      obtain ⟨own, round⟩ := collect_ok_iff.mp ⟨reworded, schema⟩ e inside
      have kept := mem_of_collect schema inside round
      obtain ⟨e', -, same⟩ := bind_eq_ok.mp round
      cases same
      have present : e' ∈ reworded := kept (List.mem_singleton.mpr rfl)
      by_cases flagged : ((envelopeErrors inv).map Problem.pointer).contains e'.pointer = true
      · refine .inl (.inl (.inl (.inl (.inl fun empty => ?_))))
        rw [empty] at flagged
        cases flagged
      · refine .inl (.inl (.inl (.inl (.inr fun empty => ?_))))
        have here : e' ∈ reworded.filter fun e =>
            !((envelopeErrors inv).map Problem.pointer).contains e.pointer :=
          List.mem_filter.mpr ⟨present, by rw [Bool.eq_false_iff.mpr flagged]; rfl⟩
        rw [empty] at here
        cases here
  | misplaced here outside =>
      exact .inl (.inl (.inl (.inl (.inl (envelopeErrors_of_misplaced here outside)))))
  | secretName isMap entry bad =>
      rcases secrets_reported ranRoot ranSecrets isMap
        (fun pointer r ran => secretMapErrors_of_name ran entry bad) with first | second
      · exact .inl (.inl (.inl (.inr first)))
      · exact .inl (.inr second)
  | secretValue isMap entry bad =>
      rcases secrets_reported ranRoot ranSecrets isMap
        (fun pointer r ran => secretMapErrors_of_value ran entry bad) with first | second
      · exact .inl (.inl (.inl (.inr first)))
      · exact .inl (.inr second)
  | varName target declared entry bad =>
      obtain ⟨r, round⟩ := collect_ok_iff.mp ⟨vars, ranVars⟩ _ target
      have inside := mem_of_collect ranVars target round
      obtain ⟨e, present⟩ := List.exists_mem_of_ne_nil _
        (targetVarErrors_of_name round declared entry bad)
      refine .inr fun empty => ?_
      rw [empty] at inside
      exact absurd (inside present) List.not_mem_nil
  | localTarget defined =>
      refine .inl (.inl (.inr ?_))
      rw [localErrors, if_pos defined]
      exact List.cons_ne_nil _ _

/-- Validation returns a list, and one that is not empty where a rule is broken, exactly
on the regular documents; on all others it raises. -/
theorem inventory_reports_iff (secretsCheck : Bytes → Option Bytes)
    (tostring : Option Doc → Bytes) (inv : Doc) (table : inv.isTable = true) :
    (∃ errors, validate secretsCheck tostring inv = .ok errors ∧
      (Violated secretsCheck inv → errors ≠ [])) ↔ Regular inv := by
  rw [← validate_ok_iff secretsCheck tostring table]
  constructor
  · rintro ⟨errors, ran, -⟩
    exact ⟨errors, ran⟩
  · rintro ⟨errors, ran⟩
    exact ⟨errors, ran, errors_of_violated ran⟩

/-- `targets: {web: {backend: local}}` -/
def unknownBackend : Doc :=
  .map [(bytes "targets", .map [(bytes "web", .map [(bytes "backend", .string (bytes "local"))])])]

theorem inventory_reports_unknownBackend :
    ∃ errors, validate (fun _ => none) (fun _ => []) unknownBackend = .ok errors ∧ errors ≠ [] := by
  have regular : Regular unknownBackend := by
    refine ⟨trivial, ?_, ?_, ?_⟩
    · intro entry member
      rw [List.mem_singleton.mp member]
      exact trivial
    · intro entry member
      rw [List.mem_singleton.mp member]
      exact trivial
    · intro entry member _ _
      rw [List.mem_singleton.mp member]
      rfl
  obtain ⟨errors, ran, named⟩ :=
    (inventory_reports_iff (fun _ => none) (fun _ => []) unknownBackend rfl).mpr regular
  exact ⟨errors, ran, named (.schema (by decide))⟩

/-- `secrets: [x]` -/
def secretList : Doc := .map [(bytes "secrets", .array [.string (bytes "x")])]

theorem inventory_raises_secretList :
    secretList.isTable = true ∧ Violated (fun _ => none) secretList ∧
      ¬ ∃ errors, validate (fun _ => none) (fun _ => []) secretList = .ok errors := by
  refine ⟨rfl, .schema (by decide), ?_⟩
  rintro ⟨errors, ran⟩
  obtain ⟨reworded, root, secrets, vars, -, ranRoot, -⟩ := validate_parts ran
  cases ranRoot

end Qwe.Schema
