import Qwe.Lua.RoundTrip
import Qwe.Schema.Reports
import Qwe.Schema.Workflow

/-!
# Envelopes in a workflow

No traversal looks for `!encrypted` values in a workflow.  They are refused wherever
the schema asks for a type, since an envelope is neither an object nor an array nor a
scalar, and in a `secrets:` map below its entries.  What is left is the `with:` of a
step: of a `run:` step, and of a plugin whose schema has nothing against the envelope.
-/

set_option autoImplicit false

namespace Qwe.Schema

open Qwe.Lua (Number)
open Qwe.Redact (Bytes)
open Qwe.Template (bytes esc quoted Problem Place decimalNat)

/-- An envelope stands at the end of the path. -/
inductive Doc.Holds : Doc → List Token → Prop where
  | here (s : Bytes) : Doc.Holds (.secret s) []
  | item {elements : List Doc} {i : Nat} {d : Doc} {path : List Token}
      (at_i : elements[i]? = some d) (inner : d.Holds path) :
      Doc.Holds (.array elements) (.index i :: path)
  | entry {fields : List (Bytes × Doc)} {key : Bytes} {d : Doc} {path : List Token}
      (found : fields.lookup key = some d) (inner : d.Holds path) :
      Doc.Holds (.map fields) (.key key :: path)

/-! ## What the schema is silent about -/

/-- All there is are lines that `validate` leaves out. -/
def Silent (found : List Output) : Prop :=
  ∀ o ∈ found, endsWith o.keywordLocation "/allOf" = true

theorem endsWith_plain {location : Bytes} (plain : Plain location) :
    endsWith location "/allOf" = false := by
  rw [Bool.eq_false_iff]
  intro ends
  rw [endsWith, List.isSuffixOf_iff_suffix] at ends
  obtain ⟨front, cut⟩ := ends
  apply plain
  rw [← cut, List.getLast?_append]
  rfl

section Silent
variable {own base pointer : Bytes} {d : Doc}

theorem silent_keyword {schema : List Keyword} (silent : Silent (outputs schema own base pointer d))
    {keyword : Keyword} (member : keyword ∈ schema) : Silent (keyword own base pointer d) :=
  fun o inside => silent o (List.mem_flatMap.mpr ⟨keyword, member, inside⟩)

theorem silent_leaf {keyword : Keyword} {name : String} (leaf : Leaf name keyword)
    (plain : Plain (bytes "/" ++ bytes name)) (silent : Silent (keyword own base pointer d)) :
    keyword own base pointer d = [] := by
  apply List.eq_nil_iff_forall_not_mem.mpr
  intro o inside
  have ends := silent o inside
  rw [(leaf own base pointer d o inside).2, endsWith_plain (plain_under plain)] at ends
  cases ends

theorem silent_type {types : List JsonType} (silent : Silent (type types own base pointer d)) :
    types.any (·.admits d) = true := by
  have nothing := silent_leaf (leaf_type types) (by decide) silent
  by_contra other
  rw [type, if_neg other] at nothing
  cases nothing

theorem silent_never {known : List String}
    (silent : Silent (additionalProperties known never own base pointer d)) :
    ∀ entry ∈ d.fields, entry.1 ∈ known.map bytes := by
  intro entry member
  by_contra unknown
  have inside : (⟨pointer ++ bytes "/" ++ esc entry.1, under base "additionalProperties", none⟩ :
      Output) ∈ additionalProperties known never own base pointer d :=
    List.mem_flatMap.mpr ⟨entry, List.mem_filter.mpr ⟨member, by simpa using unknown⟩,
      List.mem_singleton.mpr rfl⟩
  have ends := silent _ inside
  rw [endsWith_plain (plain_under (by decide))] at ends
  cases ends

theorem silent_additional {schema : List Keyword}
    (silent : Silent (additionalProperties [] schema own base pointer d)) {entry : Bytes × Doc}
    (member : entry ∈ d.fields) :
    Silent (sub schema (under base "additionalProperties") (pointer ++ bytes "/" ++ esc entry.1)
      entry.2) :=
  fun o inside => silent o
    (List.mem_flatMap.mpr ⟨entry, List.mem_filter.mpr ⟨member, rfl⟩, inside⟩)

theorem silent_properties {props : List (String × List Keyword)}
    (silent : Silent (properties props own base pointer d)) {entry : Bytes × Doc}
    (member : entry ∈ d.fields) {p : String × List Keyword}
    (found : props.find? (fun p => bytes p.1 == entry.1) = some p) :
    Silent (sub p.2 (under (under base "properties") p.1) (pointer ++ bytes "/" ++ esc entry.1)
      entry.2) :=
  fun o inside => silent o (List.mem_flatMap.mpr ⟨entry, member, by simpa [found] using inside⟩)

theorem silent_items {schema : List Keyword} {elements : List Doc}
    (silent : Silent (items schema own base pointer (.array elements))) {i : Nat} {element : Doc}
    (at_i : elements[i]? = some element) :
    Silent (sub schema (under base "items") (pointer ++ bytes "/" ++ bytes (toString i)) element) :=
  fun o inside => silent o
    (List.mem_flatMap.mpr ⟨(element, i), List.mem_zipIdx_iff_getElem?.mpr at_i, inside⟩)

theorem silent_ref {schema : List Keyword} (silent : Silent (outputs (ref schema) own base pointer d)) :
    Silent (outputs schema own (under base "$ref") pointer d) := by
  rw [outputs_ref] at silent
  exact silent

theorem silent_allOf {schemas : List (List Keyword)}
    (silent : Silent (allOf schemas own base pointer d)) {i : Nat} {schema : List Keyword}
    (at_i : schemas[i]? = some schema) :
    Silent (sub schema (under (under base "allOf") (toString i)) pointer d) := by
  intro o inside
  apply silent
  have inner : o ∈ (schemas.zipIdx.map fun entry =>
      sub entry.1 (under (under base "allOf") (toString entry.2)) pointer d).flatten := by
    rw [← List.flatMap_def]
    exact List.mem_flatMap.mpr ⟨(schema, i), List.mem_zipIdx_iff_getElem?.mpr at_i, inside⟩
  unfold allOf
  dsimp only
  rw [if_neg]
  · exact List.mem_cons_of_mem _ inner
  · rw [List.isEmpty_iff]
    intro empty
    rw [empty] at inner
    cases inner

end Silent

/-! ## Values without envelopes -/

def JsonType.isScalar : JsonType → Bool
  | .array => false
  | .object => false
  | _ => true

/-- A value of one of the scalar types holds no envelope. -/
theorem not_holds_of_scalar {types : List JsonType} (scalars : types.all JsonType.isScalar = true)
    {d : Doc} (admitted : types.any (·.admits d) = true) (path : List Token) : ¬ d.Holds path := by
  intro holds
  obtain ⟨t, member, fits⟩ := List.any_eq_true.mp admitted
  have scalar := List.all_eq_true.mp scalars t member
  cases holds with
  | here s => cases t <;> cases fits
  | item at_i inner =>
      cases t with
      | array => cases scalar
      | _ => cases fits
  | entry found inner =>
      cases t with
      | object => cases scalar
      | _ => cases fits

theorem map_of_object {d : Doc} (admitted : [JsonType.object].any (·.admits d) = true) :
    ∃ fields, d = .map fields := by
  cases d with
  | map fields => exact ⟨fields, rfl⟩
  | _ => cases admitted

theorem array_of_array {d : Doc} (admitted : [JsonType.array].any (·.admits d) = true) :
    ∃ elements, d = .array elements := by
  cases d with
  | array elements => exact ⟨elements, rfl⟩
  | _ => cases admitted

section Places
variable {own base pointer : Bytes} {d : Doc} {path : List Token}

theorem not_holds_typed {types : List JsonType} {rest : List Keyword}
    (scalars : types.all JsonType.isScalar = true)
    (silent : Silent (outputs (type types :: rest) own base pointer d)) : ¬ d.Holds path :=
  not_holds_of_scalar scalars (silent_type (silent_keyword silent List.mem_cons_self)) path

theorem not_holds_env (silent : Silent (outputs (ref envSchema) own base pointer d)) :
    ¬ d.Holds path := by
  have inner := silent_ref silent
  intro holds
  obtain ⟨fields, rfl⟩ := map_of_object (silent_type (silent_keyword inner List.mem_cons_self))
  cases holds with
  | entry found below =>
      have each := silent_additional
        (silent_keyword inner (List.mem_cons_of_mem _ List.mem_cons_self)) (Lua.mem_of_lookup found)
      exact absurd below (not_holds_typed (by decide) each)

theorem not_holds_const {s : Bytes} (silent : Silent (outputs [const s] own base pointer d)) :
    ¬ d.Holds path := by
  have nothing := silent_leaf (leaf_const s) (by decide) (silent_keyword silent List.mem_cons_self)
  intro holds
  cases holds <;> cases nothing

theorem not_holds_strings {schema rest : List Keyword} (isArray : type [.array] ∈ schema)
    (ofStrings : items (type [.string] :: rest) ∈ schema)
    (silent : Silent (outputs schema own base pointer d)) : ¬ d.Holds path := by
  intro holds
  obtain ⟨elements, rfl⟩ := array_of_array (silent_type (silent_keyword silent isArray))
  cases holds with
  | item at_i below =>
      have each := silent_items (silent_keyword silent ofStrings) at_i
      exact absurd below (not_holds_typed (by decide) each)

end Places

/-! ## Steps -/

/-- The step names the plugin. -/
def Uses (step : Doc) (name : Bytes) : Prop :=
  (∃ d, (bytes "uses", d) ∈ step.fields) ∧
    ∀ d, (bytes "uses", d) ∈ step.fields → d.equals name = true

/-- The plugin's schema has nothing to say about the value that is passed on. -/
def Plugin.Admits (plugin : Plugin) (w : Doc) : Prop :=
  ∀ o ∈ plugin.refusals w, endsWith (bytes "/with" ++ o.keywordLocation) "/allOf" = true

theorem endsWith_with (front rest : Bytes) :
    endsWith (front ++ (bytes "/with" ++ rest)) "/allOf" = endsWith (bytes "/with" ++ rest) "/allOf" := by
  rw [Bool.eq_iff_iff, endsWith, endsWith, List.isSuffixOf_iff_suffix, List.isSuffixOf_iff_suffix]
  constructor
  · intro whole
    cases rest with
    | nil =>
        obtain ⟨before, cut⟩ := whole
        have last := congrArg List.getLast? cut
        have f : (bytes "/allOf").getLast? = some 102 := rfl
        have h : (bytes "/with").getLast? = some 104 := rfl
        rw [List.append_nil, List.getLast?_append, List.getLast?_append, f, h] at last
        cases last
    | cons b tail =>
        apply List.suffix_of_suffix_length_le whole (List.suffix_append _ _)
        have six : (bytes "/allOf").length = 6 := rfl
        have five : (bytes "/with").length = 5 := rfl
        rw [List.length_append, List.length_cons]
        omega
  · intro tail
    exact tail.trans (List.suffix_append _ _)

theorem under_with (location rest : Bytes) :
    under location "with" ++ rest = location ++ (bytes "/with" ++ rest) := by
  rw [under, List.append_assoc, List.append_assoc]
  rfl

section Step
variable {plugins : List Plugin} {own base pointer : Bytes} {step : Doc}

/-- The condition of the branch of a plugin that the step names. -/
theorem branch_taken {name : Bytes} (uses : Uses step name) {fields : List (Bytes × Doc)}
    (isMap : step = .map fields) (location : Bytes) :
    (sub [properties [("uses", [const name])], required ["uses"]] location pointer step).isEmpty
      = true := by
  subst isMap
  obtain ⟨⟨d, present⟩, each⟩ := uses
  rw [List.isEmpty_iff]
  apply List.flatMap_eq_nil_iff.mpr
  intro keyword member
  simp only [List.mem_cons, List.not_mem_nil, or_false] at member
  rcases member with rfl | rfl
  · apply List.flatMap_eq_nil_iff.mpr
    intro entry inside
    by_cases key : entry.1 = bytes "uses"
    · have found : [("uses", [const name])].find? (fun p => bytes p.1 == entry.1)
          = some ("uses", [const name]) := by
        rw [key]
        rfl
      rw [found]
      have equal := each entry.2 (by rw [← key]; exact inside)
      simp only [sub, outputs, List.flatMap_cons, List.flatMap_nil, List.append_nil, const, equal,
        if_true]
    · have missed : [("uses", [const name])].find? (fun p => bytes p.1 == entry.1) = none := by
        rw [List.find?_eq_none]
        intro p member
        rw [List.mem_singleton.mp member, beq_iff_eq]
        exact fun same => key same.symm
      rw [missed]
  · have known : (fields.lookup (bytes "uses")).isNone = false := by
      rw [Option.isNone_eq_false_iff, List.lookup_isSome_iff]
      exact ⟨_, present, by simp⟩
    simp [required, known]

theorem admits_of_properties {plugin : Plugin}
    (silent : Silent (properties [("with", plugin.schema)] own base pointer step)) {w : Doc}
    (given : (bytes "with", w) ∈ step.fields) : plugin.Admits w := by
  have inner := silent_properties silent given rfl
  intro o inside
  have located := inner _ (List.mem_flatMap.mpr ⟨_, List.mem_singleton.mpr rfl,
    List.mem_map.mpr ⟨o, inside, rfl⟩⟩)
  dsimp only at located
  rw [under_with] at located
  rw [← endsWith_with (under base "properties") o.keywordLocation]
  exact located

/-- The schema of a step that is silent about its `with:` is that of its plugins too. -/
theorem admits_of_silent (silent : Silent (outputs (stepSchema plugins) own base pointer step))
    {w : Doc} (given : (bytes "with", w) ∈ step.fields) {plugin : Plugin}
    (loaded : plugin ∈ plugins) (uses : Uses step plugin.name) : plugin.Admits w := by
  obtain ⟨fields, isMap⟩ := map_of_object (silent_type (silent_keyword silent List.mem_cons_self))
  obtain ⟨i, at_i⟩ := List.mem_iff_getElem?.mp loaded
  have all : Silent (allOf ([if_ [required ["uses"]] [not_ [required ["run"]]] [required ["run"]]] ::
      plugins.map pluginBranch) own base pointer step) := silent_keyword silent (by simp [stepSchema])
  have branch : Silent (sub (pluginBranch plugin) (under (under base "allOf") (toString (i + 1)))
      pointer step) := by
    apply silent_allOf all
    rw [List.getElem?_cons_succ, List.getElem?_map, at_i]
    rfl
  have taken := silent_keyword branch List.mem_cons_self
  rw [if_, if_pos (branch_taken uses isMap _)] at taken
  exact admits_of_properties (silent_keyword taken List.mem_cons_self) given

/-- An envelope in a step stands in its `with:`. -/
theorem with_of_holds (silent : Silent (outputs (stepSchema plugins) own base pointer step))
    {path : List Token} (holds : step.Holds path) :
    ∃ w rest, path = .key (bytes "with") :: rest ∧ (bytes "with", w) ∈ step.fields ∧ w.Holds rest := by
  obtain ⟨fields, rfl⟩ := map_of_object (silent_type (silent_keyword silent List.mem_cons_self))
  cases holds with
  | @entry _ key d rest found inner =>
      have member : (key, d) ∈ fields := Lua.mem_of_lookup found
      have known : key ∈ stepKeys.map bytes := silent_never
        (silent_keyword silent (List.mem_cons_of_mem _ List.mem_cons_self)) _ member
      have props : Silent (properties _ own base pointer (.map fields)) :=
        silent_keyword silent (List.mem_cons_of_mem _ (List.mem_cons_of_mem _ List.mem_cons_self))
      simp only [stepKeys, List.map_cons, List.map_nil, List.mem_cons, List.not_mem_nil,
        or_false] at known
      rcases known with rfl | rfl | rfl | rfl | rfl | rfl | rfl | rfl | rfl | rfl | rfl
      · exact absurd inner (not_holds_typed (by decide) (silent_properties props member rfl))
      · exact absurd inner (not_holds_typed (by decide) (silent_properties props member rfl))
      · exact absurd inner (not_holds_typed (by decide) (silent_properties props member rfl))
      · exact absurd inner (not_holds_typed (by decide) (silent_properties props member rfl))
      · exact ⟨d, rest, rfl, member, inner⟩
      · exact absurd inner (not_holds_env (silent_properties props member rfl))
      · exact absurd inner (not_holds_const (silent_properties props member rfl))
      · exact absurd inner (not_holds_typed (by decide) (silent_properties props member rfl))
      · exact absurd inner (not_holds_typed (by decide) (silent_properties props member rfl))
      · exact absurd inner (not_holds_typed (by decide) (silent_properties props member rfl))
      · exact absurd inner (not_holds_strings List.mem_cons_self
          (List.mem_cons_of_mem _ List.mem_cons_self) (silent_properties props member rfl))

end Step

/-! ## Workflows -/

/-- The step at `/jobs/<job>/steps/<i>`. -/
def IsStep (d : Doc) (job : Bytes) (i : Nat) (step : Doc) : Prop :=
  ∃ jobs j elements, (bytes "jobs", jobs) ∈ d.fields ∧ (job, j) ∈ jobs.fields ∧
    (bytes "steps", .array elements) ∈ j.fields ∧ elements[i]? = some step

section Workflow
variable {plugins : List Plugin} {own base pointer : Bytes} {d : Doc}

theorem silent_job (silent : Silent (outputs (workflowSchema plugins) own base pointer d))
    {jobs j : Doc} {job : Bytes} (given : (bytes "jobs", jobs) ∈ d.fields)
    (member : (job, j) ∈ jobs.fields) :
    ∃ own base pointer, Silent (outputs (jobSchema plugins) own base pointer j) := by
  have props : Silent (properties _ own base pointer d) := silent_keyword silent
    (List.mem_cons_of_mem _ (List.mem_cons_of_mem _ (List.mem_cons_of_mem _ List.mem_cons_self)))
  have inner := silent_properties props given rfl
  have each := silent_additional (silent_keyword inner
    (List.mem_cons_of_mem _ (List.mem_cons_of_mem _ List.mem_cons_self))) member
  exact ⟨_, _, _, silent_ref each⟩

theorem silent_stepOfJob {job : Doc} (silent : Silent (outputs (jobSchema plugins) own base pointer job))
    {elements : List Doc} {i : Nat} {step : Doc}
    (given : (bytes "steps", .array elements) ∈ job.fields) (at_i : elements[i]? = some step) :
    ∃ own base pointer, Silent (outputs (stepSchema plugins) own base pointer step) := by
  have props : Silent (properties _ own base pointer job) := silent_keyword silent
    (List.mem_cons_of_mem _ (List.mem_cons_of_mem _ (List.mem_cons_of_mem _ List.mem_cons_self)))
  have inner := silent_properties props given rfl
  have each := silent_items (silent_keyword inner
    (List.mem_cons_of_mem _ (List.mem_cons_of_mem _ List.mem_cons_self))) at_i
  exact ⟨_, _, _, silent_ref each⟩

theorem silent_step (silent : Silent (outputs (workflowSchema plugins) own base pointer d))
    {job : Bytes} {i : Nat} {step : Doc} (isStep : IsStep d job i step) :
    ∃ own base pointer, Silent (outputs (stepSchema plugins) own base pointer step) := by
  obtain ⟨jobs, j, elements, ofJobs, ofJob, ofSteps, at_i⟩ := isStep
  obtain ⟨_, _, _, inner⟩ := silent_job silent ofJobs ofJob
  exact silent_stepOfJob inner ofSteps at_i

/-- An envelope in a job stands in one of its steps. -/
theorem steps_of_holds {job : Doc} (silent : Silent (outputs (jobSchema plugins) own base pointer job))
    {path : List Token} (holds : job.Holds path) :
    ∃ elements i step rest, path = .key (bytes "steps") :: .index i :: rest ∧
      (bytes "steps", .array elements) ∈ job.fields ∧ elements[i]? = some step ∧ step.Holds rest := by
  obtain ⟨fields, rfl⟩ := map_of_object (silent_type (silent_keyword silent List.mem_cons_self))
  cases holds with
  | @entry _ key d rest found inner =>
      have member : (key, d) ∈ fields := Lua.mem_of_lookup found
      have known : key ∈ jobKeys.map bytes := silent_never (silent_keyword silent
        (List.mem_cons_of_mem _ (List.mem_cons_of_mem _ List.mem_cons_self))) _ member
      have props : Silent (properties _ own base pointer (.map fields)) := silent_keyword silent
        (List.mem_cons_of_mem _ (List.mem_cons_of_mem _ (List.mem_cons_of_mem _ List.mem_cons_self)))
      simp only [jobKeys, List.map_cons, List.map_nil, List.mem_cons, List.not_mem_nil,
        or_false] at known
      rcases known with rfl | rfl | rfl | rfl | rfl | rfl
      · exact absurd inner (not_holds_typed (by decide) (silent_properties props member rfl))
      · exact absurd inner (not_holds_typed (by decide) (silent_properties props member rfl))
      · exact absurd inner (not_holds_strings List.mem_cons_self
          (List.mem_cons_of_mem _ (List.mem_cons_of_mem _ List.mem_cons_self))
          (silent_properties props member rfl))
      · exact absurd inner (not_holds_env (silent_properties props member rfl))
      · exact absurd inner (not_holds_typed (by decide) (silent_properties props member rfl))
      · obtain ⟨elements, rfl⟩ := array_of_array
          (silent_type (silent_keyword (silent_properties props member rfl) List.mem_cons_self))
        cases inner with
        | item at_i below => exact ⟨elements, _, _, _, rfl, member, at_i, below⟩

/-- An envelope in a workflow stands in the secrets or in the `with:` of a step. -/
theorem place_of_holds (silent : Silent (outputs (workflowSchema plugins) own base pointer d))
    {path : List Token} (holds : d.Holds path) :
    (∃ fields rest, path = .key (bytes "secrets") :: rest ∧ d.field "secrets" = some (.map fields) ∧
      (Doc.map fields).Holds rest) ∨
    ∃ job i step w rest, path = .key (bytes "jobs") :: .key job :: .key (bytes "steps") :: .index i ::
        .key (bytes "with") :: rest ∧ IsStep d job i step ∧ (bytes "with", w) ∈ step.fields := by
  obtain ⟨fields, rfl⟩ := map_of_object (silent_type (silent_keyword silent List.mem_cons_self))
  cases holds with
  | @entry _ key e rest found inner =>
      have member : (key, e) ∈ fields := Lua.mem_of_lookup found
      have known : key ∈ workflowKeys.map bytes := silent_never (silent_keyword silent
        (List.mem_cons_of_mem _ (List.mem_cons_of_mem _ List.mem_cons_self))) _ member
      have props : Silent (properties _ own base pointer (.map fields)) := silent_keyword silent
        (List.mem_cons_of_mem _ (List.mem_cons_of_mem _ (List.mem_cons_of_mem _ List.mem_cons_self)))
      simp only [workflowKeys, List.map_cons, List.map_nil, List.mem_cons, List.not_mem_nil,
        or_false] at known
      rcases known with rfl | rfl | rfl | rfl | rfl
      · exact absurd inner (not_holds_typed (by decide) (silent_properties props member rfl))
      · exact absurd inner (not_holds_typed (by decide) (silent_properties props member rfl))
      · exact absurd inner (not_holds_env (silent_properties props member rfl))
      · obtain ⟨secrets, rfl⟩ := map_of_object
          (silent_type (silent_keyword (silent_properties props member rfl) List.mem_cons_self))
        exact .inl ⟨secrets, rest, rfl, found, inner⟩
      · obtain ⟨jobs, rfl⟩ := map_of_object
          (silent_type (silent_keyword (silent_properties props member rfl) List.mem_cons_self))
        cases inner with
        | @entry _ job j below foundJob innerJob =>
            have ofJob : (job, j) ∈ jobs := Lua.mem_of_lookup foundJob
            obtain ⟨_, _, _, silentJob⟩ := silent_job silent member ofJob
            obtain ⟨elements, i, step, later, rfl, ofSteps, at_i, inStep⟩ :=
              steps_of_holds silentJob innerJob
            obtain ⟨_, _, _, silentStep⟩ := silent_stepOfJob silentJob ofSteps at_i
            obtain ⟨w, last, rfl, given, -⟩ := with_of_holds silentStep inStep
            exact .inr ⟨job, i, step, w, last, rfl, ⟨_, j, elements, member, ofJob, ofSteps, at_i⟩,
              given⟩

end Workflow

end Qwe.Schema
