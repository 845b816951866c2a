import Qwe.Schema.Strays

/-!
# Envelopes that get past

A workflow with one step is accepted whatever its `with:` holds, if it is a `run:`
step: nothing looks into the `with:` of those.  With a plugin it is the plugin's
schema alone that decides.
-/

set_option autoImplicit false

namespace Qwe.Schema

open Qwe.Lua (Number)
open Qwe.Redact (Bytes)
open Qwe.Template (bytes esc quoted Problem Place decimalNat)

/-! ## Texts without templates -/

/-- No text in the value has a template. -/
inductive Doc.Literal : Doc → Prop where
  | null : Doc.Literal .null
  | boolean (b : Bool) : Doc.Literal (.boolean b)
  | number (n : Number) : Doc.Literal (.number n)
  | string {s : Bytes} (plain : Template.eachExpr s = []) : Doc.Literal (.string s)
  | secret {s : Bytes} (plain : Template.eachExpr s = []) : Doc.Literal (.secret s)
  | array {elements : List Doc} (each : ∀ e ∈ elements, e.Literal) : Doc.Literal (.array elements)
  | map {fields : List (Bytes × Doc)} (each : ∀ entry ∈ fields, entry.2.Literal) :
      Doc.Literal (.map fields)

section Scan
variable {workflow : Template.Workflow} {inventory : Template.Inventory}
  {print : Number → Template.Number}

theorem scanItems_of_each {elements : List Doc}
    (each : ∀ e ∈ elements, ∀ scope pointer,
      Template.scan workflow inventory scope pointer (dataOf print e) = [])
    (scope : Template.Scope) (pointer : Bytes) (i : Nat) :
    Template.scanItems workflow inventory scope pointer i (dataItems print elements) = [] := by
  induction elements generalizing i with
  | nil => rw [dataItems, Template.scanItems]
  | cons e rest inductionHypothesis =>
      rw [dataItems, Template.scanItems, each e List.mem_cons_self,
        inductionHypothesis fun e member => each e (List.mem_cons_of_mem _ member)]
      rfl

theorem scanEntries_of_each {fields : List (Bytes × Doc)}
    (each : ∀ entry ∈ fields, ∀ scope pointer,
      Template.scan workflow inventory scope pointer (dataOf print entry.2) = [])
    (scope : Template.Scope) (pointer : Bytes) :
    Template.scanEntries workflow inventory scope pointer (dataFields print fields) = [] := by
  induction fields with
  | nil => rw [dataFields, Template.scanEntries]
  | cons entry rest inductionHypothesis =>
      obtain ⟨key, e⟩ := entry
      rw [dataFields, Template.scanEntries, each (key, e) List.mem_cons_self,
        inductionHypothesis fun e member => each e (List.mem_cons_of_mem _ member)]
      rfl

theorem scan_of_literal {d : Doc} (literal : d.Literal) (scope : Template.Scope) (pointer : Bytes) :
    Template.scan workflow inventory scope pointer (dataOf print d) = [] := by
  induction literal generalizing scope pointer with
  | null => rw [dataOf, Template.scan]
  | boolean b => simp [dataOf, Template.scan]
  | number n => simp [dataOf, Template.scan]
  | string plain => rw [dataOf, Template.scan, Template.scanText, plain, List.filterMap_nil]
  | secret plain => rw [dataOf, Template.scan, Template.scanText, plain, List.filterMap_nil]
  | array each inductionHypothesis =>
      rw [dataOf, Template.scan]
      exact scanItems_of_each inductionHypothesis _ _ _
  | map each inductionHypothesis =>
      rw [dataOf, Template.scan]
      exact scanEntries_of_each inductionHypothesis _ _
end Scan

/-! ## A workflow with one step -/

/-- A step with nothing but what it runs, and its `with:`. -/
def bareStep (uses : Option Bytes) (w : Doc) : Doc :=
  match uses with
  | some name => .map [(bytes "uses", .string name), (bytes "with", w)]
  | none => .map [(bytes "run", .string []), (bytes "with", w)]

def bareJob (step : Doc) : Doc :=
  .map [(bytes "target", .string (bytes "local")), (bytes "steps", .array [step])]

def oneStep (step : Doc) : Doc :=
  .map [(bytes "jobs", .map [(bytes "j", bareJob step)])]

section Bare
variable {print : Number → Template.Number} {secretsCheck : Bytes → Option Bytes}
  {plugins : List Plugin} {inventory : Template.Inventory} {uses : Option Bytes}
  {fields : List (Bytes × Doc)}

theorem check_oneStep (literal : (Doc.map fields).Literal) :
    Template.check (workflowOf print (oneStep (bareStep uses (.map fields)))) inventory
      (declaredOutputs plugins) = [] := by
  have scanned (workflow : Template.Workflow) (scope : Template.Scope) (pointer : Bytes) :
      Template.scan workflow inventory scope pointer (.map (dataFields print fields)) = [] := by
    rw [← dataOf]
    exact scan_of_literal literal scope pointer
  cases uses with
  | none =>
      have one : Template.check (workflowOf print (oneStep (bareStep none (.map fields)))) inventory
          (declaredOutputs plugins)
        = Template.scan _ inventory _ _ (.map (dataFields print fields)) ++ [] ++ [] := rfl
      rw [one, scanned]
      rfl
  | some name =>
      have one : Template.check (workflowOf print (oneStep (bareStep (some name) (.map fields))))
          inventory (declaredOutputs plugins)
        = Template.scan _ inventory _ _ (.map (dataFields print fields)) ++ [] ++ [] := rfl
      rw [one, scanned]
      rfl

theorem structureErrors_oneStep (literal : (Doc.map fields).Literal) :
    structureErrors print secretsCheck plugins inventory (oneStep (bareStep uses (.map fields)))
      = .ok [] := by
  have jobs : (Template.jobsInOrder (workflowOf print
      (oneStep (bareStep uses (.map fields))))).flatMap (Template.jobProblems inventory) = [] := by
    cases uses <;> rfl
  have become : (Template.jobsInOrder (workflowOf print
      (oneStep (bareStep uses (.map fields))))).flatMap Template.becomeProblems = [] := by
    cases uses <;> rfl
  have none_ : secretMapErrors secretsCheck ((oneStep (bareStep uses (.map fields))).field "secrets")
      (bytes "/secrets") = .ok [] := rfl
  rw [structureErrors, jobs, become, none_, check_oneStep literal]
  rfl

end Bare

theorem silent_bareJob {plugins : List Plugin} {step : Doc}
    (silent : ∀ own base pointer, Silent (outputs (stepSchema plugins) own base pointer step))
    (own base pointer : Bytes) :
    Silent (outputs (jobSchema plugins) own base pointer (bareJob step)) := by
  intro o inside
  obtain ⟨keyword, member, inside⟩ := List.mem_flatMap.mp inside
  simp only [jobSchema, List.mem_cons, List.not_mem_nil, or_false] at member
  rcases member with rfl | rfl | rfl | rfl
  · cases inside
  · cases inside
  · cases inside
  · obtain ⟨entry, member, p, found, inside⟩ := mem_properties inside
    simp only [bareJob, Doc.fields, List.mem_cons, List.not_mem_nil, or_false] at member
    rcases member with rfl | rfl
    · cases found
      cases inside
    · cases found
      obtain ⟨keyword, member, inside⟩ := List.mem_flatMap.mp inside
      simp only [List.mem_cons, List.not_mem_nil, or_false] at member
      rcases member with rfl | rfl | rfl
      · cases inside
      · cases inside
      · obtain ⟨entry, member, inside⟩ := List.mem_flatMap.mp inside
        cases List.mem_singleton.mp member
        dsimp only [sub] at inside
        rw [outputs_ref] at inside
        exact silent _ _ _ o inside

theorem silent_oneStep {plugins : List Plugin} {step : Doc}
    (silent : ∀ own base pointer, Silent (outputs (stepSchema plugins) own base pointer step)) :
    Silent (outputs (workflowSchema plugins) [] [] [] (oneStep step)) := by
  intro o inside
  obtain ⟨keyword, member, inside⟩ := List.mem_flatMap.mp inside
  simp only [workflowSchema, List.mem_cons, List.not_mem_nil, or_false] at member
  rcases member with rfl | rfl | rfl | rfl
  · cases inside
  · cases inside
  · cases inside
  · obtain ⟨entry, member, p, found, inside⟩ := mem_properties inside
    cases List.mem_singleton.mp member
    cases found
    obtain ⟨keyword, member, inside⟩ := List.mem_flatMap.mp inside
    simp only [List.mem_cons, List.not_mem_nil, or_false] at member
    rcases member with rfl | rfl | rfl
    · cases inside
    · cases inside
    · obtain ⟨entry, member, -, inside⟩ := mem_additionalProperties inside
      cases List.mem_singleton.mp member
      dsimp only [sub] at inside
      rw [outputs_ref] at inside
      exact silent_bareJob silent _ _ _ o inside

/-! ## The step -/

/-- What the schema has against a `with:` is left out of the report, if anything. -/
def Admitted (plugins : List Plugin) (uses : Option Bytes) (w : Doc) : Prop :=
  (∃ fields, w = .map fields) ∧ ∀ name, uses = some name →
    name ∈ plugins.map Plugin.name ∧ ∀ plugin ∈ plugins, plugin.name = name → plugin.Admits w

theorem mem_bareStep {uses : Option Bytes} {w : Doc} {entry : Bytes × Doc}
    (member : entry ∈ (bareStep uses w).fields) :
    entry = (bytes "with", w) ∨ uses = none ∧ entry = (bytes "run", .string []) ∨
      ∃ name, uses = some name ∧ entry = (bytes "uses", .string name) := by
  cases uses with
  | none =>
      rcases List.mem_cons.mp member with first | second
      · exact .inr (.inl ⟨rfl, first⟩)
      · exact .inl (List.mem_singleton.mp second)
  | some name =>
      rcases List.mem_cons.mp member with first | second
      · exact .inr (.inr ⟨name, rfl, first⟩)
      · exact .inl (List.mem_singleton.mp second)

theorem with_mem_bareStep {uses : Option Bytes} {w : Doc} :
    (bytes "with", w) ∈ (bareStep uses w).fields := by
  cases uses <;> exact List.mem_cons_of_mem _ List.mem_cons_self

theorem name_of_uses {uses : Option Bytes} {w : Doc} {name : Bytes}
    (named : Uses (bareStep uses w) name) : uses = some name := by
  obtain ⟨⟨e, present⟩, each⟩ := named
  rcases mem_bareStep present with same | ⟨-, same⟩ | ⟨other, rfl, -⟩
  · exact absurd (congrArg Prod.fst same) (show ¬ bytes "uses" = bytes "with" by decide)
  · exact absurd (congrArg Prod.fst same) (show ¬ bytes "uses" = bytes "run" by decide)
  · have same := each _ List.mem_cons_self
    rw [Doc.equals, beq_iff_eq] at same
    rw [same]

theorem silent_pluginBranch {plugin : Plugin} {uses : Option Bytes} {w : Doc}
    (admits : uses = some plugin.name → plugin.Admits w) (location pointer : Bytes) :
    Silent (sub (pluginBranch plugin) location pointer (bareStep uses w)) := by
  intro o inside
  obtain ⟨keyword, member, inside⟩ := List.mem_flatMap.mp inside
  cases List.mem_singleton.mp member
  by_cases taken : (sub [properties [("uses", [const plugin.name])], required ["uses"]]
      (under location "if") pointer (bareStep uses w)).isEmpty = true
  · have named := name_of_uses (uses_of_branch with_mem_bareStep (List.isEmpty_iff.mp taken))
    rw [if_, if_pos taken] at inside
    obtain ⟨keyword, member, inside⟩ := List.mem_flatMap.mp inside
    rcases List.mem_cons.mp member with rfl | asked
    · obtain ⟨entry, member, p, found, inside⟩ := mem_properties inside
      have called := List.find?_some found
      cases List.mem_singleton.mp (List.mem_of_find?_eq_some found)
      rw [beq_iff_eq] at called
      rcases mem_bareStep member with rfl | ⟨-, rfl⟩ | ⟨other, -, rfl⟩
      · obtain ⟨keyword, member, inside⟩ := List.mem_flatMap.mp inside
        cases List.mem_singleton.mp member
        obtain ⟨refusal, refused, rfl⟩ := List.mem_map.mp inside
        have ends := admits named refusal refused
        rw [← endsWith_with (under (under location "then") "properties"), ← under_with] at ends
        exact ends
      · exact absurd called (show ¬ bytes "with" = bytes "run" by decide)
      · exact absurd called (show ¬ bytes "with" = bytes "uses" by decide)
    · split_ifs at asked with asks
      · cases List.mem_singleton.mp asked
        cases uses <;> cases inside
      · cases asked
  · rw [if_, if_neg taken] at inside
    cases inside

theorem silent_bareStep {plugins : List Plugin} {uses : Option Bytes} {w : Doc}
    (admitted : Admitted plugins uses w) (own base pointer : Bytes) :
    Silent (outputs (stepSchema plugins) own base pointer (bareStep uses w)) := by
  obtain ⟨⟨fields, isMap⟩, known⟩ := admitted
  intro o inside
  obtain ⟨keyword, member, inside⟩ := List.mem_flatMap.mp inside
  simp only [stepSchema, List.mem_cons, List.not_mem_nil, or_false] at member
  rcases member with rfl | rfl | rfl | rfl
  · cases uses <;> cases inside
  · cases uses <;> cases inside
  · obtain ⟨entry, member, p, found, inside⟩ := mem_properties inside
    rcases mem_bareStep member with rfl | ⟨-, rfl⟩ | ⟨name, named, rfl⟩
    · cases found
      rw [isMap] at inside
      cases inside
    · cases found
      cases inside
    · cases found
      have listed : (plugins.map Plugin.name).any (Doc.string name).equals = true := by
        rw [List.any_eq_true]
        exact ⟨name, (known name named).1, beq_self_eq_true name⟩
      simp [sub, outputs, enum, listed, type, JsonType.admits] at inside
  · rcases mem_allOf inside with rfl | ⟨schema, member, location, inside⟩
    · rw [endsWith, List.isSuffixOf_iff_suffix]
      exact ⟨own, (List.append_assoc own (bytes "/") (bytes "allOf")).symm⟩
    · rcases List.mem_cons.mp member with rfl | branch
      · cases uses <;> cases inside
      · obtain ⟨plugin, loaded, rfl⟩ := List.mem_map.mp branch
        exact silent_pluginBranch (fun named => (known _ named).2 plugin loaded rfl) _ _ o inside

/-! ## The plugin decides -/

/-- The step is one that runs a plugin, or one that does not. -/
def Calls (step : Doc) : Option Bytes → Prop
  | some name => Uses step name
  | none => ∀ e, (bytes "uses", e) ∉ step.fields

theorem calls_bareStep (uses : Option Bytes) (w : Doc) : Calls (bareStep uses w) uses := by
  cases uses with
  | none =>
      intro e present
      rcases mem_bareStep present with same | ⟨-, same⟩ | ⟨other, ⟨⟩, -⟩
      · exact absurd (congrArg Prod.fst same) (show ¬ bytes "uses" = bytes "with" by decide)
      · exact absurd (congrArg Prod.fst same) (show ¬ bytes "uses" = bytes "run" by decide)
  | some name =>
      refine ⟨⟨_, List.mem_cons_self⟩, fun e present => ?_⟩
      rcases mem_bareStep present with same | ⟨⟨⟩, -⟩ | ⟨other, same, equal⟩
      · exact absurd (congrArg Prod.fst same) (show ¬ bytes "uses" = bytes "with" by decide)
      · cases same
        rw [(Prod.mk.inj equal).2]
        exact beq_self_eq_true name

theorem admitted_of_silent {plugins : List Plugin} {own base pointer : Bytes} {step w : Doc}
    (silent : Silent (outputs (stepSchema plugins) own base pointer step))
    (given : (bytes "with", w) ∈ step.fields) {uses : Option Bytes} (calls : Calls step uses) :
    Admitted plugins uses w := by
  have props : Silent (properties _ own base pointer step) :=
    silent_keyword silent (List.mem_cons_of_mem _ (List.mem_cons_of_mem _ List.mem_cons_self))
  constructor
  · exact map_of_object
      (silent_type (silent_keyword (silent_properties props given rfl) List.mem_cons_self))
  · rintro name rfl
    obtain ⟨⟨e, present⟩, each⟩ := calls
    constructor
    · have listed : enum (plugins.map Plugin.name) _ _ _ e = [] :=
        silent_leaf (leaf_enum _) (by decide) (silent_keyword (silent_properties props present rfl)
          (List.mem_cons_of_mem _ List.mem_cons_self))
      by_contra unknown
      have missing : ¬ (plugins.map Plugin.name).any e.equals = true := by
        rw [List.any_eq_true]
        rintro ⟨other, member, equal⟩
        have named := each e present
        cases e with
        | string s =>
            rw [Doc.equals, beq_iff_eq] at equal named
            rw [← named, equal] at unknown
            exact unknown member
        | _ => cases named
      rw [enum, if_neg missing] at listed
      cases listed
    · rintro plugin loaded rfl
      exact admits_of_silent silent given loaded ⟨⟨e, present⟩, each⟩

section Validate
variable (tostring : Option Doc → Bytes) (seconds : Number → Bytes)
variable (print : Number → Template.Number) (secretsCheck : Bytes → Option Bytes)
variable {plugins : List Plugin} (inventory : Template.Inventory)

theorem accepted_oneStep {uses : Option Bytes} {w : Doc} (literal : w.Literal)
    (admitted : Admitted plugins uses w) :
    validateWorkflow tostring seconds print secretsCheck plugins inventory
      (oneStep (bareStep uses w)) = .ok [] := by
  have silent := silent_oneStep (silent_bareStep admitted)
  obtain ⟨⟨fields, rfl⟩, -⟩ := admitted
  rw [validateWorkflow]
  split_ifs with empty
  · exact structureErrors_oneStep literal
  · rw [List.filter_eq_nil_iff.mpr, List.map_nil]
    intro o inside
    rw [silent o inside]
    exact Bool.false_ne_true

/-- Every workflow with the step is refused exactly if the plugin refuses. -/
theorem refused_iff_not_admitted {uses : Option Bytes} {w : Doc} (literal : w.Literal) :
    (∀ d job i step, IsStep d job i step → Calls step uses → (bytes "with", w) ∈ step.fields →
      Refused tostring seconds print secretsCheck plugins inventory d) ↔
    ¬ Admitted plugins uses w := by
  constructor
  · intro always admitted
    have isStep : IsStep (oneStep (bareStep uses w)) (bytes "j") 0 (bareStep uses w) :=
      ⟨_, _, _, List.mem_cons_self, List.mem_cons_self,
        List.mem_cons_of_mem _ List.mem_cons_self, rfl⟩
    obtain ⟨errors, ran, some_⟩ := always _ _ _ _ isStep (calls_bareStep uses w) with_mem_bareStep
    rw [accepted_oneStep tostring seconds print secretsCheck inventory literal admitted] at ran
    cases ran
    exact some_ rfl
  · intro refused d job i step isStep calls given
    apply refused_of_heard
    intro silent
    obtain ⟨_, _, _, ofStep⟩ := silent_step silent isStep
    exact refused (admitted_of_silent ofStep given calls)

end Validate

/-! ## Strays -/

/-- A stray envelope is refused wherever no step and no plugin excuses it; and whether
every workflow with a given `with:` is refused is for the plugin to say, if the texts
in it have no templates. -/
theorem stray_envelopes_refused (tostring : Option Doc → Bytes) (seconds : Number → Bytes)
    (print : Number → Template.Number) (secretsCheck : Bytes → Option Bytes) (plugins : List Plugin)
    (inventory : Template.Inventory) :
    (∀ d path, d.Holds path → ¬ Excused plugins d path →
      Refused tostring seconds print secretsCheck plugins inventory d) ∧
    ∀ uses w, (∃ path, w.Holds path) → w.Literal →
      ((∀ d job i step, IsStep d job i step → Calls step uses → (bytes "with", w) ∈ step.fields →
        Refused tostring seconds print secretsCheck plugins inventory d) ↔
      ¬ Admitted plugins uses w) :=
  ⟨fun _ _ holds stray => refused_of_stray tostring seconds print secretsCheck holds stray,
    fun _ _ _ literal =>
      refused_iff_not_admitted tostring seconds print secretsCheck inventory literal⟩

/-- An envelope for the target of a job. -/
def secretTarget : Doc :=
  .map [(bytes "jobs", .map [(bytes "j", .map [(bytes "target", .secret (bytes "1.AAAA"))])])]

/-- An envelope for the path of a file. -/
def secretPath : Doc := .map [(bytes "path", .secret (bytes "1.AAAA"))]

theorem stray_envelopes_refused_secretTarget :
    Refused (fun _ => []) (fun _ => []) (fun _ => .integral 0) (fun _ => none) builtinPlugins {}
      secretTarget ∧
    Refused (fun _ => []) (fun _ => []) (fun _ => .integral 0) (fun _ => none) builtinPlugins {}
      (oneStep (bareStep (some (bytes "file.read")) secretPath)) := by
  constructor
  · have holds : secretTarget.Holds [.key (bytes "jobs"), .key (bytes "j"), .key (bytes "target")] :=
      .entry rfl (.entry rfl (.entry rfl (.here _)))
    apply (stray_envelopes_refused _ _ _ _ builtinPlugins {}).1 _ _ holds
    intro excused
    cases excused
  · have holds : secretPath.Holds [.key (bytes "path")] := .entry rfl (.here _)
    have literal : secretPath.Literal := by
      apply Doc.Literal.map
      intro entry member
      rw [List.mem_singleton.mp member]
      exact .secret (by decide)
    have refused : ¬ Admitted builtinPlugins (some (bytes "file.read")) secretPath := by
      rintro ⟨-, admits⟩
      have silent := (admits _ rfl).2 _ (List.mem_cons_of_mem _ List.mem_cons_self) rfl
      exact absurd (silent _ List.mem_cons_self) (by decide)
    exact ((stray_envelopes_refused _ _ _ _ builtinPlugins {}).2 _ _ ⟨_, holds⟩ literal).mpr refused
      _ (bytes "j") 0 _ ⟨_, _, _, List.mem_cons_self, List.mem_cons_self,
        List.mem_cons_of_mem _ List.mem_cons_self, rfl⟩
      (calls_bareStep _ _) with_mem_bareStep

/-- A step that runs a command and has an envelope in its `with:`. -/
def secretWith : Doc := .map [(bytes "x", .secret (bytes "1.AAAA"))]

theorem stray_envelope_in_run :
    ¬ ∀ (tostring : Option Doc → Bytes) (seconds : Number → Bytes)
      (print : Number → Template.Number) (secretsCheck : Bytes → Option Bytes)
      (plugins : List Plugin) (inventory : Template.Inventory) (d : Doc) (path : List Token),
      d.Holds path → (∀ name, path ≠ [.key (bytes "secrets"), .key name]) →
      Refused tostring seconds print secretsCheck plugins inventory d := by
  intro always
  have holds : (oneStep (bareStep none secretWith)).Holds [.key (bytes "jobs"), .key (bytes "j"),
      .key (bytes "steps"), .index 0, .key (bytes "with"), .key (bytes "x")] :=
    .entry rfl (.entry rfl (.entry rfl (.item rfl (.entry rfl (.entry rfl (.here _))))))
  have literal : secretWith.Literal := by
    apply Doc.Literal.map
    intro entry member
    rw [List.mem_singleton.mp member]
    exact .secret (by decide)
  have admitted : Admitted builtinPlugins none secretWith := ⟨⟨_, rfl⟩, fun name same => by cases same⟩
  obtain ⟨errors, ran, some_⟩ := always (fun _ => []) (fun _ => []) (fun _ => .integral 0)
    (fun _ => none) builtinPlugins {} _ _ holds (fun name same => by cases same)
  rw [accepted_oneStep _ _ _ _ _ literal admitted] at ran
  cases ran
  exact some_ rfl

end Qwe.Schema
