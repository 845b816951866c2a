import Qwe.Schema.Envelopes

/-!
# Which stray envelopes are refused

An envelope that is not an entry of `secrets:` is refused, unless it stands in the
`with:` of a `run:` step or in one that the schema of the step's plugin admits.  One
inside an entry of `secrets:` gets past too, where all that a plugin says about some
step is left out of the report: the checks behind the schema do not run then.
-/

set_option autoImplicit false

namespace Qwe.Schema

open Qwe.Lua (Number)
open Qwe.Redact (Bytes)
open Qwe.Template (bytes esc quoted Problem Place decimalNat)

/-! ## Keywords that say nothing or something that is reported -/

def Quiet (keyword : Keyword) (d : Doc) : Prop :=
  ∀ own base pointer, Silent (keyword own base pointer d) → keyword own base pointer d = []

section Quiet
variable {d : Doc}

theorem quiet_of_leaf {keyword : Keyword} {name : String} (leaf : Leaf name keyword)
    (plain : Plain (bytes "/" ++ bytes name)) : Quiet keyword d :=
  fun _ _ _ silent => silent_leaf leaf plain silent

theorem quiet_outputs {schema : List Keyword} (each : ∀ keyword ∈ schema, Quiet keyword d)
    {own base pointer : Bytes} (silent : Silent (outputs schema own base pointer d)) :
    outputs schema own base pointer d = [] :=
  List.flatMap_eq_nil_iff.mpr fun keyword member =>
    each keyword member own base pointer (silent_keyword silent member)

theorem quiet_ref {schema : List Keyword} (each : ∀ keyword ∈ schema, Quiet keyword d) :
    ∀ keyword ∈ ref schema, Quiet keyword d := by
  intro keyword member own base pointer silent
  obtain ⟨inner, inside, rfl⟩ := List.mem_map.mp member
  exact each inner inside own _ pointer silent

theorem quiet_never (known : List String) : Quiet (additionalProperties known never) d := by
  intro own base pointer silent
  have all := silent_never silent
  apply List.flatMap_eq_nil_iff.mpr
  intro entry member
  obtain ⟨present, unknown⟩ := List.mem_filter.mp member
  have known := all entry present
  simp [known] at unknown

theorem quiet_additional {schema : List Keyword}
    (each : ∀ entry ∈ d.fields, ∀ keyword ∈ schema, Quiet keyword entry.2) :
    Quiet (additionalProperties [] schema) d := by
  intro own base pointer silent
  apply List.flatMap_eq_nil_iff.mpr
  intro entry member
  obtain ⟨present, -⟩ := List.mem_filter.mp member
  exact quiet_outputs (each entry present) (silent_additional silent present)

theorem quiet_properties {props : List (String × List Keyword)}
    (each : ∀ entry ∈ d.fields, ∀ p, props.find? (fun p => bytes p.1 == entry.1) = some p →
      ∀ keyword ∈ p.2, Quiet keyword entry.2) : Quiet (properties props) d := by
  intro own base pointer silent
  apply List.flatMap_eq_nil_iff.mpr
  intro entry member
  cases found : props.find? fun p => bytes p.1 == entry.1 with
  | none => rfl
  | some p => exact quiet_outputs (each entry member p found) (silent_properties silent member found)

theorem quiet_items {schema : List Keyword}
    (each : ∀ elements, d = .array elements → ∀ element ∈ elements, ∀ keyword ∈ schema,
      Quiet keyword element) : Quiet (items schema) d := by
  intro own base pointer silent
  cases d with
  | array elements =>
      apply List.flatMap_eq_nil_iff.mpr
      rintro ⟨element, i⟩ member
      have at_i := List.mem_zipIdx_iff_getElem?.mp member
      exact quiet_outputs (each elements rfl element (List.mem_of_getElem? at_i))
        (silent_items silent at_i)
  | _ => rfl

theorem quiet_allOf {schemas : List (List Keyword)}
    (each : ∀ schema ∈ schemas, ∀ keyword ∈ schema, Quiet keyword d) : Quiet (allOf schemas) d := by
  intro own base pointer silent
  have inner : (schemas.zipIdx.map fun entry =>
      sub entry.1 (under (under base "allOf") (toString entry.2)) pointer d).flatten = [] := by
    rw [← List.flatMap_def]
    apply List.flatMap_eq_nil_iff.mpr
    rintro ⟨schema, i⟩ member
    have at_i := List.mem_zipIdx_iff_getElem?.mp member
    exact quiet_outputs (each schema (List.mem_of_getElem? at_i)) (silent_allOf silent at_i)
  rw [allOf, inner]
  rfl

theorem quiet_if {condition then_ else_ : List Keyword}
    (eachThen : ∀ location pointer, sub condition location pointer d = [] →
      ∀ keyword ∈ then_, Quiet keyword d)
    (eachElse : ∀ keyword ∈ else_, Quiet keyword d) : Quiet (if_ condition then_ else_) d := by
  intro own base pointer silent
  rw [if_] at silent ⊢
  split_ifs at silent ⊢ with taken
  · exact quiet_outputs (eachThen _ _ (List.isEmpty_iff.mp taken)) silent
  · exact quiet_outputs eachElse silent

/-! ## The keywords of a workflow -/

theorem leaf_exclusiveMinimum (min : Int) : Leaf "exclusiveMinimum" (exclusiveMinimum min) := by
  apply leaf_of_verdict
  intro own base pointer d
  cases d with
  | number n =>
      rw [exclusiveMinimum]
      split_ifs
      · exact .inl rfl
      · exact .inr ⟨_, rfl⟩
  | _ => exact .inl rfl

theorem leaf_maximum (max : Int) : Leaf "maximum" (maximum max) := by
  apply leaf_of_verdict
  intro own base pointer d
  cases d with
  | number n =>
      rw [maximum]
      split_ifs
      · exact .inl rfl
      · exact .inr ⟨_, rfl⟩
  | _ => exact .inl rfl

theorem leaf_minItems (min : Nat) : Leaf "minItems" (minItems min) := by
  apply leaf_of_verdict
  intro own base pointer d
  cases d with
  | array elements =>
      rw [minItems]
      split_ifs
      · exact .inl rfl
      · exact .inr ⟨_, rfl⟩
  | _ => exact .inl rfl

theorem leaf_minProperties (min : Nat) : Leaf "minProperties" (minProperties min) := by
  apply leaf_of_verdict
  intro own base pointer d
  cases d with
  | map fields =>
      rw [minProperties]
      split_ifs
      · exact .inl rfl
      · exact .inr ⟨_, rfl⟩
  | _ => exact .inl rfl

theorem mem_repeatedItems {own pointer : Bytes} {o : Output} {elements : List Doc}
    {seen : List (Doc × Nat)} {i : Nat} (inside : o ∈ repeatedItems own pointer seen i elements) :
    ∃ message, o = failed own pointer "uniqueItems" message := by
  induction elements generalizing seen i with
  | nil => cases inside
  | cons d rest inductionHypothesis =>
      rw [repeatedItems] at inside
      split_ifs at inside
      · exact inductionHypothesis inside
      · rcases List.mem_append.mp inside with here | later
        · cases found : seen.find? fun entry => sameScalar entry.1 d with
          | none => simp [found] at here
          | some entry =>
              rw [found] at here
              exact ⟨_, List.mem_singleton.mp here⟩
        · exact inductionHypothesis later

theorem leaf_uniqueItems : Leaf "uniqueItems" uniqueItems := by
  intro own base pointer d o inside
  cases d with
  | array elements =>
      obtain ⟨message, rfl⟩ := mem_repeatedItems inside
      exact ⟨rfl, rfl⟩
  | _ => cases inside

theorem quiet_type (types : List JsonType) : Quiet (type types) d :=
  quiet_of_leaf (leaf_type types) (by decide)

theorem quiet_minLength (min : Nat) : Quiet (minLength min) d :=
  quiet_of_leaf (leaf_minLength min) (by decide)

theorem quiet_required (names : List String) : Quiet (required names) d :=
  quiet_of_leaf (leaf_required names) (by decide)

theorem quiet_strings : Quiet (items [type [.string], minLength 1]) d := by
  apply quiet_items
  intro elements _ element _
  simpa using ⟨quiet_type _, quiet_minLength _⟩

theorem quiet_env : ∀ keyword ∈ ref envSchema, Quiet keyword d := by
  apply quiet_ref
  have each : ∀ entry ∈ d.fields, ∀ keyword ∈ [type [.string, .number, .boolean]],
      Quiet keyword entry.2 := by
    intro entry _
    simpa using quiet_type _
  simpa [envSchema] using ⟨quiet_type _, quiet_additional each⟩

theorem quiet_timeout :
    ∀ keyword ∈ [type [.number], exclusiveMinimum 0, maximum 604800], Quiet keyword d := by
  simpa using ⟨quiet_type _, quiet_of_leaf (leaf_exclusiveMinimum 0) (by decide),
    quiet_of_leaf (leaf_maximum 604800) (by decide)⟩

end Quiet

/-! ## Steps, jobs and workflows -/

/-- Whatever the step's plugins have against its `with:` is reported. -/
def Heard (plugins : List Plugin) (step : Doc) : Prop :=
  ∀ plugin ∈ plugins, Uses step plugin.name → ∀ w, (bytes "with", w) ∈ step.fields →
    plugin.Admits w → plugin.refusals w = []

theorem uses_of_branch {name location pointer : Bytes} {step : Doc} {entry : Bytes × Doc}
    (isMap : entry ∈ step.fields)
    (taken : sub [properties [("uses", [const name])], required ["uses"]] location pointer step = []) :
    Uses step name := by
  obtain ⟨fields, rfl⟩ : ∃ fields, step = .map fields := by
    cases step with
    | map fields => exact ⟨fields, rfl⟩
    | _ => cases isMap
  have each := List.flatMap_eq_nil_iff.mp taken
  have checked := each _ List.mem_cons_self
  have present := each _ (List.mem_cons_of_mem _ List.mem_cons_self)
  constructor
  · by_contra missing
    have absent : fields.lookup (bytes "uses") = none := by
      rw [List.lookup_eq_none_iff]
      intro p member
      rw [bne_iff_ne]
      rintro same
      exact missing ⟨p.2, by rw [same]; exact member⟩
    simp [required, absent] at present
  · intro d member
    have equal := List.flatMap_eq_nil_iff.mp checked _ member
    by_contra other
    simp [sub, outputs, const, other] at equal

theorem quiet_with {plugin : Plugin} {step : Doc}
    (heard : ∀ w, (bytes "with", w) ∈ step.fields → plugin.Admits w → plugin.refusals w = []) :
    Quiet (properties [("with", plugin.schema)]) step := by
  intro own base pointer silent
  apply List.flatMap_eq_nil_iff.mpr
  rintro ⟨key, w⟩ member
  cases found : [("with", plugin.schema)].find? fun p => bytes p.1 == key with
  | none => rfl
  | some p =>
      have same : p = ("with", plugin.schema) :=
        List.mem_singleton.mp (List.mem_of_find?_eq_some found)
      have called := List.find?_some found
      rw [same, beq_iff_eq] at called
      subst same
      have nothing := heard w (by rw [called]; exact member)
        (admits_of_properties silent (by rw [called]; exact member))
      simp [sub, outputs, Plugin.schema, nothing]

theorem quiet_pluginBranch {plugin : Plugin} {step : Doc}
    (heard : Uses step plugin.name → ∀ w, (bytes "with", w) ∈ step.fields → plugin.Admits w →
      plugin.refusals w = []) : ∀ keyword ∈ pluginBranch plugin, Quiet keyword step := by
  intro keyword member
  rw [List.mem_singleton.mp member]
  apply quiet_if
  · intro location pointer taken keyword inside
    rcases List.mem_cons.mp inside with rfl | asked
    · exact quiet_with fun w given => heard (uses_of_branch given taken) w given
    · split_ifs at asked with asks
      · rw [List.mem_singleton.mp asked]
        exact quiet_required _
      · cases asked
  · intro keyword inside
    cases inside

theorem quiet_step {plugins : List Plugin} {step : Doc} (heard : Heard plugins step) :
    ∀ keyword ∈ stepSchema plugins, Quiet keyword step := by
  have props : Quiet (properties
      [("id", [type [.string], minLength 1]),
       ("name", [type [.string]]),
       ("run", [type [.string]]),
       ("uses", [type [.string], enum (plugins.map Plugin.name)]),
       ("with", [type [.object]]),
       ("env", ref envSchema),
       ("on", [const (bytes "local")]),
       ("become", [type [.boolean, .string, .integer]]),
       ("timeout-seconds", [type [.number], exclusiveMinimum 0, maximum 604800]),
       ("continue-on-error", [type [.boolean]]),
       ("secret-outputs", [type [.array], items [type [.string], minLength 1]])]) step := by
    apply quiet_properties
    intro entry _ p found
    have known := List.mem_of_find?_eq_some found
    simp only [List.mem_cons, List.not_mem_nil, or_false] at known
    rcases known with rfl | rfl | rfl | rfl | rfl | rfl | rfl | rfl | rfl | rfl | rfl
    · simpa using ⟨quiet_type _, quiet_minLength _⟩
    · simpa using quiet_type _
    · simpa using quiet_type _
    · simpa using ⟨quiet_type _, quiet_of_leaf (leaf_enum _) (by decide)⟩
    · simpa using quiet_type _
    · exact quiet_env
    · simpa using quiet_of_leaf (leaf_const _) (by decide)
    · simpa using quiet_type _
    · exact quiet_timeout
    · simpa using quiet_type _
    · simpa using ⟨quiet_type _, quiet_strings⟩
  have all : Quiet (allOf ([if_ [required ["uses"]] [not_ [required ["run"]]] [required ["run"]]] ::
      plugins.map pluginBranch)) step := by
    apply quiet_allOf
    intro schema member
    rcases List.mem_cons.mp member with rfl | branch
    · intro keyword inside
      rw [List.mem_singleton.mp inside]
      apply quiet_if
      · intro _ _ _
        simpa using quiet_of_leaf (leaf_not _) (by decide)
      · simpa using quiet_required _
    · obtain ⟨plugin, loaded, rfl⟩ := List.mem_map.mp branch
      exact quiet_pluginBranch (heard plugin loaded)
  simpa [stepSchema] using ⟨quiet_type _, quiet_never _, props, all⟩

theorem quiet_job {plugins : List Plugin} {job : Doc}
    (heard : ∀ elements, (bytes "steps", .array elements) ∈ job.fields → ∀ step ∈ elements,
      Heard plugins step) : ∀ keyword ∈ jobSchema plugins, Quiet keyword job := by
  have props : Quiet (properties
      [("name", [type [.string]]),
       ("target", [type [.string], minLength 1]),
       ("needs", [type [.array], uniqueItems, items [type [.string], minLength 1]]),
       ("env", ref envSchema),
       ("timeout-seconds", [type [.number], exclusiveMinimum 0, maximum 604800]),
       ("steps", [type [.array], minItems 1, items (ref (stepSchema plugins))])]) job := by
    apply quiet_properties
    intro entry member p found
    have known := List.mem_of_find?_eq_some found
    have called := List.find?_some found
    simp only [List.mem_cons, List.not_mem_nil, or_false] at known
    rcases known with rfl | rfl | rfl | rfl | rfl | rfl
    · simpa using quiet_type _
    · simpa using ⟨quiet_type _, quiet_minLength _⟩
    · simpa using ⟨quiet_type _, quiet_of_leaf leaf_uniqueItems (by decide), quiet_strings⟩
    · exact quiet_env
    · exact quiet_timeout
    · have steps : Quiet (items (ref (stepSchema plugins))) entry.2 := by
        apply quiet_items
        intro elements isArray step inside
        apply quiet_ref
        refine quiet_step (heard elements ?_ step inside)
        rw [← isArray, beq_iff_eq.mp called]
        exact member
      simpa using ⟨quiet_type _, quiet_of_leaf (leaf_minItems 1) (by decide), steps⟩
  simpa [jobSchema] using ⟨quiet_type _, quiet_required _, quiet_never _, props⟩

/-- All that the schema says about a workflow is reported, if all of what the plugins
say is. -/
theorem quiet_workflow {plugins : List Plugin} {d : Doc}
    (heard : ∀ job i step, IsStep d job i step → Heard plugins step) :
    ∀ keyword ∈ workflowSchema plugins, Quiet keyword d := by
  have props : Quiet (properties
      [("name", [type [.string]]),
       ("max-parallel", [type [.integer], minimum 1]),
       ("env", ref envSchema),
       ("secrets", [type [.object]]),
       ("jobs", [type [.object], minProperties 1,
         additionalProperties [] (ref (jobSchema plugins))])]) d := by
    apply quiet_properties
    intro entry member p found
    have known := List.mem_of_find?_eq_some found
    have called := List.find?_some found
    simp only [List.mem_cons, List.not_mem_nil, or_false] at known
    rcases known with rfl | rfl | rfl | rfl | rfl
    · simpa using quiet_type _
    · simpa using ⟨quiet_type _, quiet_of_leaf (leaf_minimum 1) (by decide)⟩
    · exact quiet_env
    · simpa using quiet_type _
    · have jobs : Quiet (additionalProperties [] (ref (jobSchema plugins))) entry.2 := by
        apply quiet_additional
        intro job inside
        apply quiet_ref
        apply quiet_job
        intro elements given step among
        obtain ⟨i, at_i⟩ := List.mem_iff_getElem?.mp among
        refine heard job.1 i step ⟨entry.2, job.2, elements, ?_, inside, given, at_i⟩
        rw [beq_iff_eq.mp called]
        exact member
      simpa using ⟨quiet_type _, quiet_of_leaf (leaf_minProperties 1) (by decide), jobs⟩
  simpa [workflowSchema] using ⟨quiet_type _, quiet_required _, quiet_never _, props⟩

/-! ## What is refused -/

/-- The places where an envelope may get past. -/
inductive Excused (plugins : List Plugin) (d : Doc) : List Token → Prop where
  | secret (name : Bytes) : Excused plugins d [.key (bytes "secrets"), .key name]
  | passed {job : Bytes} {i : Nat} {step w : Doc} (isStep : IsStep d job i step)
      (given : (bytes "with", w) ∈ step.fields)
      (admitted : ∀ plugin ∈ plugins, Uses step plugin.name → plugin.Admits w) (rest : List Token) :
      Excused plugins d (.key (bytes "jobs") :: .key job :: .key (bytes "steps") :: .index i ::
        .key (bytes "with") :: rest)
  | unheard {job : Bytes} {i : Nat} {step : Doc} (isStep : IsStep d job i step)
      (muted : ¬ Heard plugins step) (name : Bytes) (token : Token) (rest : List Token) :
      Excused plugins d (.key (bytes "secrets") :: .key name :: token :: rest)

section Validate
variable (tostring : Option Doc → Bytes) (seconds : Number → Bytes)
variable (print : Number → Template.Number) (secretsCheck : Bytes → Option Bytes)
variable (plugins : List Plugin) (inventory : Template.Inventory) (d : Doc)

/-- `validate` returns errors. -/
def Refused : Prop :=
  ∃ errors, validateWorkflow tostring seconds print secretsCheck plugins inventory d = .ok errors ∧
    errors ≠ []

variable {plugins inventory d}

theorem refused_of_heard (heard : ¬ Silent (outputs (workflowSchema plugins) [] [] [] d)) :
    Refused tostring seconds print secretsCheck plugins inventory d := by
  rw [Silent] at heard
  push Not at heard
  obtain ⟨o, inside, reported⟩ := heard
  have some_ : ¬ (outputs (workflowSchema plugins) [] [] [] d).isEmpty = true := by
    rw [List.isEmpty_iff]
    intro empty
    rw [empty] at inside
    cases inside
  rw [Refused, validateWorkflow, if_neg some_]
  refine ⟨_, rfl, ?_⟩
  rw [ne_eq, List.map_eq_nil_iff, List.filter_eq_nil_iff]
  push Not
  refine ⟨o, inside, ?_⟩
  rw [Bool.eq_false_iff.mpr reported]
  rfl

theorem refused_of_secrets (empty : outputs (workflowSchema plugins) [] [] [] d = [])
    {fields : List (Bytes × Doc)} (given : d.field "secrets" = some (.map fields)) {name : Bytes}
    {e : Doc} (member : (name, e) ∈ fields) (other : ∀ s, e ≠ .secret s) :
    Refused tostring seconds print secretsCheck plugins inventory d := by
  have isMap : noItems (some (.map fields)) := trivial
  obtain ⟨r, ran⟩ : ∃ r, secretMapErrors secretsCheck _ (bytes "/secrets") = .ok r :=
    secretMapErrors_ok_iff.mpr isMap
  have reported : r ≠ [] := secretMapErrors_of_value ran
    (List.mem_map.mpr ⟨(name, e), member, rfl⟩) fun s same => absurd same (other s)
  rw [Refused, validateWorkflow, empty, if_pos List.isEmpty_nil, structureErrors, given, ran]
  refine ⟨_, rfl, ?_⟩
  simp [reported]

theorem refused_of_stray {path : List Token} (holds : d.Holds path)
    (stray : ¬ Excused plugins d path) :
    Refused tostring seconds print secretsCheck plugins inventory d := by
  by_cases silent : Silent (outputs (workflowSchema plugins) [] [] [] d)
  · rcases place_of_holds silent holds with ⟨fields, rest, rfl, given, inner⟩ |
      ⟨job, i, step, w, rest, rfl, isStep, given⟩
    · cases inner with
      | @entry _ name e later found below =>
          cases below with
          | here s => exact absurd (.secret name) stray
          | item at_i deeper | entry next deeper =>
              have heard : ∀ job i step, IsStep d job i step → Heard plugins step := by
                intro job i step isStep
                by_contra muted
                exact stray (.unheard isStep muted name _ _)
              have empty := quiet_outputs (quiet_workflow heard) silent
              exact refused_of_secrets tostring seconds print secretsCheck empty given
                (Lua.mem_of_lookup found) (fun s => Doc.noConfusion)
    · obtain ⟨_, _, _, ofStep⟩ := silent_step silent isStep
      exact absurd (.passed isStep given
        (fun plugin loaded uses => admits_of_silent ofStep given loaded uses) rest) stray
  · exact refused_of_heard tostring seconds print secretsCheck silent

end Validate

end Qwe.Schema
