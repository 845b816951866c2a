import Qwe.Schema.Inventory

/-!
# Where validation of an inventory raises

Three things make `validate` raise: an array with items where a `secrets:` map is
expected, one where a target's `vars:` are expected, and the name of a target with an
unknown backend that is not the token it has in a JSON pointer, if nothing that can
be indexed has that token for its name.
-/

set_option autoImplicit false

namespace Qwe.Schema

open Qwe.Redact (Bytes)
open Qwe.Template (bytes esc isName quoted Problem Place decimalNat bytesLe)

/-! ## Loops that may raise -/

theorem bind_eq_ok {α β : Type} {x : Except Raised α} {f : α → Except Raised β} {r : β} :
    (x >>= f) = .ok r ↔ ∃ a, x = .ok a ∧ f a = .ok r := by
  cases x with
  | error e =>
      constructor
      · rintro ⟨⟩
      · rintro ⟨a, ⟨⟩, -⟩
  | ok a =>
      constructor
      · intro ran
        exact ⟨a, rfl, ran⟩
      · rintro ⟨b, same, ran⟩
        cases same
        exact ran

theorem exists_bind {α β : Type} {x : Except Raised α} {f : α → Except Raised β} :
    (∃ r, (x >>= f) = .ok r) ↔ ∃ a, x = .ok a ∧ ∃ r, f a = .ok r := by
  simp only [bind_eq_ok]
  constructor
  · rintro ⟨r, a, first, second⟩
    exact ⟨a, first, r, second⟩
  · rintro ⟨a, first, r, second⟩
    exact ⟨r, a, first, second⟩

section Collect
variable {α : Type} {f : α → Except Raised (List Problem)}

theorem collect_ok_iff {xs : List α} :
    (∃ r, collect f xs = .ok r) ↔ ∀ x ∈ xs, ∃ r, f x = .ok r := by
  induction xs with
  | nil => exact iff_of_true ⟨[], rfl⟩ fun x member => nomatch member
  | cons x rest inductionHypothesis =>
      rw [collect, exists_bind, List.forall_mem_cons, ← inductionHypothesis]
      constructor
      · rintro ⟨own, first, later⟩
        obtain ⟨others, ran, -⟩ := exists_bind.mp later
        exact ⟨⟨own, first⟩, others, ran⟩
      · rintro ⟨⟨own, first⟩, others, ran⟩
        exact ⟨own, first, exists_bind.mpr ⟨others, ran, _, rfl⟩⟩

/-- What one round appends is in the list at the end. -/
theorem mem_of_collect {xs : List α} {r own : List Problem} (ran : collect f xs = .ok r) {x : α}
    (member : x ∈ xs) (round : f x = .ok own) : own ⊆ r := by
  induction xs generalizing r with
  | nil => cases member
  | cons y rest inductionHypothesis =>
      rw [collect] at ran
      obtain ⟨mine, first, ran⟩ := bind_eq_ok.mp ran
      obtain ⟨others, later, same⟩ := bind_eq_ok.mp ran
      cases same
      rcases List.mem_cons.mp member with rfl | behind
      · rw [first] at round
        cases round
        exact List.subset_append_left _ _
      · exact List.Subset.trans (inductionHypothesis later behind) (List.subset_append_right _ _)

end Collect

/-! ## Keys that are names -/

/-- Not an array with items. -/
def noItems : Option Doc → Prop
  | some (.array items) => items = []
  | _ => True

theorem isName_ok_iff {key : Key} : (∃ named, key.isName = .ok named) ↔ ∃ n, key = .name n := by
  cases key with
  | position i =>
      constructor
      · rintro ⟨named, ⟨⟩⟩
      · rintro ⟨n, ⟨⟩⟩
  | name s => exact ⟨fun _ => ⟨s, rfl⟩, fun _ => ⟨_, rfl⟩⟩

/-- `pairs` visits names only, unless the table is an array with items. -/
theorem pairs_named_iff {d : Doc} : (∀ e ∈ d.pairs, ∃ n, e.1 = .name n) ↔ noItems (some d) := by
  cases d with
  | array items =>
      constructor
      · intro named
        cases items with
        | nil => rfl
        | cons item rest =>
            obtain ⟨n, same⟩ := named (.position 1, item) (by simp [Doc.pairs])
            cases same
      · rintro (rfl : items = [])
        simp [Doc.pairs]
  | map fields =>
      refine iff_of_true ?_ trivial
      intro e member
      obtain ⟨entry, -, rfl⟩ := List.mem_map.mp member
      exact ⟨entry.1, rfl⟩
  | secret s =>
      refine iff_of_true ?_ trivial
      intro e member
      rw [List.mem_singleton.mp member]
      exact ⟨_, rfl⟩
  | _ => exact iff_of_true (fun e member => nomatch member) trivial

theorem secretEntryErrors_ok_iff {secretsCheck : Bytes → Option Bytes} {pointer : Bytes}
    {entry : Key × Doc} :
    (∃ r, secretEntryErrors secretsCheck pointer entry = .ok r) ↔ ∃ n, entry.1 = .name n := by
  rw [secretEntryErrors, exists_bind, ← isName_ok_iff]
  exact ⟨fun ⟨named, ran, _⟩ => ⟨named, ran⟩, fun ⟨named, ran⟩ => ⟨named, ran, _, rfl⟩⟩

theorem varErrors_ok_iff {pointer : Bytes} {entry : Key × Doc} :
    (∃ r, varErrors pointer entry = .ok r) ↔ ∃ n, entry.1 = .name n := by
  rw [varErrors, exists_bind, ← isName_ok_iff]
  exact ⟨fun ⟨named, ran, _⟩ => ⟨named, ran⟩, fun ⟨named, ran⟩ => ⟨named, ran, _, rfl⟩⟩

theorem secretMapErrors_ok_iff {secretsCheck : Bytes → Option Bytes} {map : Option Doc}
    {pointer : Bytes} :
    (∃ r, secretMapErrors secretsCheck map pointer = .ok r) ↔ noItems map := by
  cases map with
  | none => exact iff_of_true ⟨[], rfl⟩ trivial
  | some d =>
      rw [secretMapErrors, collect_ok_iff, ← pairs_named_iff]
      exact forall₂_congr fun e _ => secretEntryErrors_ok_iff

theorem field_of_not_table {d : Doc} (other : d.isTable = false) (key : String) :
    d.field key = none := by
  cases d <;> first | rfl | cases other

theorem targetSecretErrors_ok_iff {secretsCheck : Bytes → Option Bytes} {entry : Key × Doc} :
    (∃ r, targetSecretErrors secretsCheck entry = .ok r) ↔ noItems (entry.2.field "secrets") := by
  rw [targetSecretErrors]
  split_ifs with table
  · exact secretMapErrors_ok_iff
  · rw [field_of_not_table (Bool.eq_false_iff.mpr table)]
    exact iff_of_true ⟨[], rfl⟩ trivial

theorem targetVarErrors_ok_iff {entry : Key × Doc} :
    (∃ r, targetVarErrors entry = .ok r) ↔ noItems (entry.2.field "vars") := by
  rw [targetVarErrors]
  cases entry.2.field "vars" with
  | none => exact iff_of_true ⟨[], rfl⟩ trivial
  | some vars =>
      dsimp only
      rw [collect_ok_iff, ← pairs_named_iff]
      exact forall₂_congr fun e _ => varErrors_ok_iff

/-! ## The pointer of a backend -/

theorem esc_eq_escapeKey (token : Bytes) : esc token = Yaml.escapeKey token := by
  unfold esc Yaml.escapeKey
  congr 1
  funext b
  simp only [beq_iff_eq]
  rfl

theorem slash_notMem_esc (token : Bytes) : 47 ∉ esc token := by
  rw [esc_eq_escapeKey]
  exact Yaml.slash_notMem_escapeKey token

theorem esc_injective {a b : Bytes} (same : esc a = esc b) : a = b := by
  rw [esc_eq_escapeKey, esc_eq_escapeKey] at same
  exact Yaml.escapeKey_injective same

theorem esc_eq_nil {token : Bytes} : esc token = [] ↔ token = [] :=
  ⟨fun empty => esc_injective (empty.trans rfl), fun empty => by rw [empty]; rfl⟩

/-- The match of a pointer under a target. -/
theorem targetToken_target (key : String) {token rest : Bytes} (absent : 47 ∉ token)
    (cut : rest = [] ∨ rest.head? = some 47) :
    targetToken key (bytes "/targets" ++ bytes "/" ++ token ++ rest)
      = if token ≠ [] ∧ rest = bytes "/" ++ bytes key then some token else none := by
  have front : bytes "/targets" ++ bytes "/" ++ token ++ rest
      = bytes "/targets/" ++ (token ++ rest) := by
    rw [List.append_assoc]
    rfl
  have found : Template.after (bytes "/targets/") (bytes "/targets/" ++ (token ++ rest))
      = some (token ++ rest) := by
    simp [Template.after, List.isPrefixOf_iff_prefix]
  have each : ∀ b ∈ token, (b != 47) = true := by
    intro b member
    rw [bne_iff_ne]
    rintro rfl
    exact absent member
  have stop : rest.takeWhile (· != 47) = [] ∧ rest.dropWhile (· != 47) = rest := by
    rcases cut with rfl | slash
    · exact ⟨rfl, rfl⟩
    · obtain ⟨tail, rfl⟩ := List.head?_eq_some_iff.mp slash
      exact ⟨rfl, rfl⟩
  rw [front, targetToken, found]
  dsimp only
  rw [List.takeWhile_append_of_pos each, List.dropWhile_append_of_pos each, stop.1, stop.2,
    List.append_nil]

/-- A pointer of one token names no field of a target. -/
theorem targetToken_short (key : String) {token : Bytes} (absent : 47 ∉ token) :
    targetToken key (bytes "/" ++ token) = none := by
  have missed : Template.after (bytes "/targets/") (bytes "/" ++ token) = none := by
    rw [Template.after, if_neg]
    rw [List.isPrefixOf_iff_prefix]
    rintro ⟨rest, same⟩
    apply absent
    have tail : bytes "targets/" ++ rest = token := List.append_cancel_left
      (show bytes "/" ++ (bytes "targets/" ++ rest) = bytes "/" ++ token from same)
    rw [← tail]
    exact List.mem_append_left _ (by decide)
  rw [targetToken, missed]

/-- The target has a backend, and not `ssh`. -/
def BadBackend (t : Doc) : Prop :=
  ∃ entry ∈ t.fields, entry.1 = bytes "backend" ∧ entry.2.equals (bytes "ssh") = false

/-- The targets of an inventory whose `targets:` is a map. -/
def namedTargets (inv : Doc) : List (Bytes × Doc) :=
  (inv.fields.filter fun entry => entry.1 == bytes "targets").flatMap fun entry => entry.2.fields

section Target
variable {own base pointer : Bytes} {t : Doc} {o : Output}

theorem enum_output {allowed : List Bytes} (inside : o ∈ enum allowed own base pointer t) :
    allowed.any t.equals = false := by
  unfold enum at inside
  split_ifs at inside with valid
  · cases inside
  · exact Bool.eq_false_iff.mpr valid

/-- Two pointers that go on behind the same one. -/
theorem token_of_append {a token rest : Bytes} {key : String}
    (cut : rest = [] ∨ rest.head? = some 47) (plain : 47 ∉ bytes key)
    (same : a ++ bytes "/" ++ token ++ rest = a ++ (bytes "/" ++ bytes key)) :
    rest = [] ∧ token = bytes key := by
  rw [List.append_assoc, List.append_assoc] at same
  have tails : token ++ rest = bytes key :=
    List.append_cancel_left (List.append_cancel_left same)
  rcases cut with rfl | slash
  · exact ⟨rfl, by rw [List.append_nil] at tails; exact tails⟩
  · obtain ⟨tail, rfl⟩ := List.head?_eq_some_iff.mp slash
    exact absurd (tails ▸ List.mem_append_right _ (by simp)) plain

theorem local_ref {schema : List Keyword} (each : ∀ keyword ∈ schema, Local keyword) :
    ∀ keyword ∈ ref schema, Local keyword := by
  intro keyword member own base pointer d o inside
  obtain ⟨inner, known, rfl⟩ := List.mem_map.mp member
  exact each inner known own _ pointer d o inside

theorem local_additionalProperties {known : List String} {schema : List Keyword}
    (each : ∀ keyword ∈ schema, Local keyword) : Local (additionalProperties known schema) := by
  intro own base pointer d o inside
  obtain ⟨entry, -, -, inner⟩ := mem_additionalProperties inside
  exact (local_sub each inner).entry

theorem outputs_ref (schema : List Keyword) :
    outputs (ref schema) own base pointer t = outputs schema own (under base "$ref") pointer t := by
  rw [outputs, ref, List.flatMap_map]
  rfl

theorem mem_outputs_cons {keyword : Keyword} {schema : List Keyword} :
    o ∈ outputs (keyword :: schema) own base pointer t ↔
      o ∈ keyword own base pointer t ∨ o ∈ outputs schema own base pointer t := by
  rw [outputs, List.flatMap_cons, List.mem_append]
  rfl

theorem ne_append_token (a : Bytes) (key : String) : a ≠ a ++ (bytes "/" ++ bytes key) := by
  intro same
  have lengths := congrArg List.length same
  rw [List.length_append, List.length_append] at lengths
  have slash : (bytes "/").length = 1 := rfl
  omega

/-- What the schemas of a target's keys say, each about its own value. -/
theorem local_targetProperties {p : String × List Keyword} {entry : Bytes × Doc}
    (found : [("backend", [enum [bytes "ssh"]]), ("host", [type [.string], minLength 1]),
      ("max-sessions", [type [.integer], minimum 1]), ("disabled", [type [.string], minLength 1]),
      ("become-password", [type [.string]]), ("vars", ref varsSchema),
      ("secrets", [type [.object]])].find? (fun p => bytes p.1 == entry.1) = some p) :
    ∀ keyword ∈ p.2, Local keyword := by
  have ofType (types : List JsonType) : Local (type types) := local_of_leaf (leaf_type types)
  have ofLength : Local (minLength 1) := local_of_leaf (leaf_minLength 1)
  have member := List.mem_of_find?_eq_some found
  simp only [List.mem_cons, List.not_mem_nil, or_false] at member
  rcases member with rfl | rfl | rfl | rfl | rfl | rfl | rfl
  · simpa using local_of_leaf (leaf_enum _)
  · simpa using ⟨ofType _, ofLength⟩
  · simpa using ⟨ofType _, local_of_leaf (leaf_minimum 1)⟩
  · simpa using ⟨ofType _, ofLength⟩
  · simpa using ofType _
  · apply local_ref
    simpa [varsSchema] using ⟨ofType _, local_additionalProperties (by simpa using ofType _)⟩
  · simpa using ofType _

/-- An output of a target's schema, and when it is one about the backend. -/
theorem target_output (inside : o ∈ outputs (ref targetSchema) own base pointer t) :
    Inside pointer o.instanceLocation ∧
      (o.instanceLocation = pointer ++ (bytes "/" ++ bytes "backend") → BadBackend t) := by
  have self {location : Bytes} (here : location = pointer) : Inside pointer location ∧
      (location = pointer ++ (bytes "/" ++ bytes "backend") → BadBackend t) := by
    rw [here]
    exact ⟨Inside.self pointer, fun same => absurd same (ne_append_token pointer _)⟩
  rw [outputs_ref, targetSchema] at inside
  rcases mem_outputs_cons.mp inside with here | inside
  · exact self (leaf_type _ _ _ _ _ _ here).1
  rcases mem_outputs_cons.mp inside with here | inside
  · exact self (leaf_required _ _ _ _ _ _ here).1
  rcases mem_outputs_cons.mp inside with here | inside
  · obtain ⟨entry, member, unknown, inner⟩ := mem_additionalProperties here
    have location := local_sub local_never inner
    refine ⟨location.entry, fun same => ?_⟩
    obtain ⟨rest, cut, ends⟩ := location
    rw [cut] at same
    obtain ⟨-, token⟩ := token_of_append ends (by decide) same
    have key : entry.1 = bytes "backend" := esc_injective (token.trans (by decide))
    exact absurd (by rw [key]; decide) unknown
  rcases mem_outputs_cons.mp inside with here | inside
  · obtain ⟨entry, member, p, found, inner⟩ := mem_properties here
    have location := local_sub (local_targetProperties found) inner
    refine ⟨location.entry, fun same => ?_⟩
    obtain ⟨rest, cut, ends⟩ := location
    rw [cut] at same
    obtain ⟨-, token⟩ := token_of_append ends (by decide) same
    have key : entry.1 = bytes "backend" := esc_injective (token.trans (by decide))
    rw [key] at found
    have prop : p = ("backend", [enum [bytes "ssh"]]) := Option.some.inj (found.symm.trans rfl)
    subst prop
    rcases mem_outputs_cons.mp inner with report | none_
    · have other := enum_output report
      exact ⟨entry, member, key, by simpa using other⟩
    · cases none_
  rcases mem_outputs_cons.mp inside with here | inside
  · rcases mem_allOf here with rfl | ⟨schema, member, location, inner⟩
    · exact self rfl
    · rw [List.mem_singleton.mp member] at inner
      rcases mem_outputs_cons.mp inner with branch | none_
      · obtain ⟨location, then_ | else_⟩ := mem_if branch
        · rcases mem_outputs_cons.mp then_ with report | none_
          · exact self (leaf_required _ _ _ _ _ _ report).1
          · cases none_
        · cases else_
      · cases none_
  · cases inside

/-- A bad backend is reported, and the report is no mere line of `allOf`. -/
theorem target_reported (own base pointer : Bytes) (bad : BadBackend t) :
    ∃ o ∈ outputs (ref targetSchema) own base pointer t,
      o.instanceLocation = pointer ++ (bytes "/" ++ bytes "backend") ∧ Plain o.keywordLocation := by
  obtain ⟨entry, member, key, other⟩ := bad
  have reports : [bytes "ssh"].any entry.2.equals = false := by simpa using other
  let location := under (under (under base "$ref") "properties") "backend"
  refine ⟨failed location (pointer ++ bytes "/" ++ esc entry.1) "enum"
    (bytes "must be equal to one of the allowed values"), ?_, ?_, plain_under (by decide)⟩
  · rw [outputs_ref, targetSchema]
    refine mem_outputs_cons.mpr (.inr (mem_outputs_cons.mpr (.inr (mem_outputs_cons.mpr (.inr
      (mem_outputs_cons.mpr (.inl ?_)))))))
    refine List.mem_flatMap.mpr ⟨entry, member, ?_⟩
    rw [key]
    refine mem_outputs_cons.mpr (.inl ?_)
    rw [enum, if_neg (by rw [reports]; decide)]
    exact List.mem_singleton.mpr rfl
  · rw [key, failed, List.append_assoc]
    rfl

end Target

/-! ## The tokens that `validate` looks up -/

theorem describeLine_plain {o : Output} (plain : Plain o.keywordLocation) :
    ∃ e, describeLine o = some e ∧ e.pointer = o.instanceLocation := by
  have kept : ["/allOf", "/anyOf", "/oneOf"].any (endsWith o.keywordLocation) = false := by
    rw [List.any_eq_false]
    intro tail member ends
    rw [endsWith, List.isSuffixOf_iff_suffix] at ends
    obtain ⟨front, cut⟩ := ends
    apply plain
    rw [← cut, List.getLast?_append]
    simp only [List.mem_cons, List.not_mem_nil, or_false] at member
    rcases member with rfl | rfl | rfl <;> rfl
  rw [describeLine, kept]
  simp only [Bool.false_eq_true, if_false]
  split_ifs
  · exact ⟨_, rfl, rfl⟩
  · exact ⟨_, rfl, rfl⟩

theorem pointer_describeLine {o : Output} {e : Problem} (described : describeLine o = some e) :
    e.pointer = o.instanceLocation := by
  unfold describeLine at described
  split_ifs at described
  · cases described
    rfl
  · cases described
    rfl

/-- The pointers of backends among the problems of the schema are those of the
targets with an unknown one. -/
theorem backend_token_iff {inv : Doc} {token : Bytes} :
    (∃ e ∈ check inventorySchema inv, targetToken "backend" e.pointer = some token) ↔
      ∃ entry ∈ namedTargets inv, entry.1 ≠ [] ∧ BadBackend entry.2 ∧ token = esc entry.1 := by
  constructor
  · rintro ⟨e, inside, matched⟩
    obtain ⟨o, here, described⟩ := List.mem_filterMap.mp inside
    rw [pointer_describeLine described] at matched
    rw [inventorySchema] at here
    rcases mem_outputs_cons.mp here with root | here
    · rw [(leaf_type _ _ _ _ _ _ root).1] at matched
      cases matched
    rcases mem_outputs_cons.mp here with unknown | here
    · obtain ⟨entry, -, -, inner⟩ := mem_additionalProperties unknown
      rcases mem_outputs_cons.mp inner with own | none_
      · rw [List.mem_singleton.mp own, List.nil_append,
          targetToken_short _ (slash_notMem_esc entry.1)] at matched
        cases matched
      · cases none_
    rcases mem_outputs_cons.mp here with known | none_
    · obtain ⟨entry, member, p, found, inner⟩ := mem_properties known
      have choices := List.mem_of_find?_eq_some found
      have key : bytes p.1 = entry.1 := by simpa using List.find?_some found
      simp only [List.mem_cons, List.not_mem_nil, or_false] at choices
      have short : o.instanceLocation = [] ++ bytes "/" ++ esc entry.1 → False := by
        intro same
        rw [same, List.nil_append, targetToken_short _ (slash_notMem_esc entry.1)] at matched
        cases matched
      rcases choices with rfl | rfl
      · rcases mem_outputs_cons.mp inner with report | none_
        · exact absurd (leaf_type _ _ _ _ _ _ report).1 short
        · cases none_
      · rcases mem_outputs_cons.mp inner with report | inner
        · exact absurd (leaf_type _ _ _ _ _ _ report).1 short
        rcases mem_outputs_cons.mp inner with targets | none_
        · obtain ⟨target, inTargets, -, report⟩ := mem_additionalProperties targets
          obtain ⟨⟨rest, cut, ends⟩, bad⟩ := target_output report
          have front : [] ++ bytes "/" ++ esc entry.1 = bytes "/targets" := by
            rw [← key]
            rfl
          rw [cut, front, targetToken_target _ (slash_notMem_esc target.1) ends] at matched
          split_ifs at matched with hit
          cases matched
          refine ⟨target, ?_, fun empty => hit.1 (esc_eq_nil.mpr empty),
            bad (by rw [cut, hit.2]), rfl⟩
          exact List.mem_flatMap.mpr ⟨entry, List.mem_filter.mpr ⟨member, by simp [← key]⟩, inTargets⟩
        · cases none_
    · cases none_
  · rintro ⟨target, member, nonempty, bad, rfl⟩
    obtain ⟨entry, found, inTargets⟩ := List.mem_flatMap.mp member
    obtain ⟨inInv, key⟩ := List.mem_filter.mp found
    rw [beq_iff_eq] at key
    let schemaAt := under (under (under [] "properties") "targets") "additionalProperties"
    obtain ⟨o, report, location, plain⟩ := target_reported schemaAt schemaAt
      ([] ++ bytes "/" ++ esc entry.1 ++ bytes "/" ++ esc target.1) bad
    obtain ⟨e, described, pointer⟩ := describeLine_plain plain
    refine ⟨e, List.mem_filterMap.mpr ⟨o, ?_, described⟩, ?_⟩
    · rw [inventorySchema]
      refine mem_outputs_cons.mpr (.inr (mem_outputs_cons.mpr (.inr (mem_outputs_cons.mpr
        (.inl ?_)))))
      refine List.mem_flatMap.mpr ⟨entry, inInv, ?_⟩
      rw [key]
      refine mem_outputs_cons.mpr (.inr (mem_outputs_cons.mpr (.inl ?_)))
      refine List.mem_flatMap.mpr ⟨target, List.mem_filter.mpr ⟨inTargets, rfl⟩, ?_⟩
      rw [key] at report
      exact report
    · have front : [] ++ bytes "/" ++ esc entry.1 = bytes "/targets" := by
        rw [key]
        rfl
      rw [pointer, location, front, targetToken_target _ (slash_notMem_esc target.1) (.inr rfl),
        if_pos ⟨fun empty => nonempty (esc_eq_nil.mp empty), rfl⟩]

/-! ## When there is a result -/

theorem index_ok_iff {v : Option Doc} {key : Bytes} {r : Option Doc} :
    index v key = .ok r ↔ indexable v = true ∧ r = v.bind (Doc.get key) := by
  rw [index]
  split_ifs with known
  · rw [Except.ok.injEq]
    exact ⟨fun same => ⟨known, same.symm⟩, fun same => same.2.symm⟩
  · exact iff_of_false nofun fun same => known same.1

/-- Only a table has a value under a key. -/
theorem indexable_of_get {v : Option Doc} {key : Bytes}
    (inner : indexable (v.bind (Doc.get key)) = true) : indexable v = true := by
  cases v with
  | none => exact inner
  | some d => cases d <;> first | rfl | exact inner

/-- The values that `validate` needs to index have fields. -/
structure Regular (inv : Doc) : Prop where
  rootSecrets : noItems (inv.field "secrets")
  targetSecrets : ∀ entry ∈ targetsOf inv, noItems (entry.2.field "secrets")
  targetVars : ∀ entry ∈ targetsOf inv, noItems (entry.2.field "vars")
  backends : ∀ entry ∈ namedTargets inv, entry.1 ≠ [] → BadBackend entry.2 →
    indexable ((inv.field "targets").bind (Doc.get (esc entry.1))) = true

theorem rewordDisabled_pointer (e : Problem) : (rewordDisabled e).pointer = e.pointer := by
  unfold rewordDisabled
  dsimp only
  split_ifs <;> rfl

theorem rewordBackend_ok_iff {tostring : Option Doc → Bytes} {inv : Doc}
    (table : inv.isTable = true) {e : Problem} :
    (∃ e', rewordBackend tostring inv e = .ok e') ↔
      ∀ token, targetToken "backend" e.pointer = some token →
        indexable ((inv.field "targets").bind (Doc.get token)) = true := by
  have root : indexable (some inv) = true := by
    cases inv <;> first | rfl | cases table
  unfold rewordBackend
  cases targetToken "backend" e.pointer with
  | none => exact iff_of_true ⟨e, rfl⟩ fun token found => nomatch found
  | some token =>
      dsimp only
      simp only [exists_bind, index_ok_iff]
      constructor
      · rintro ⟨targets, ⟨-, rfl⟩, target, ⟨-, rfl⟩, backend, ⟨known, -⟩, -⟩ other found
        cases found
        exact known
      · intro known
        have inner := known token rfl
        exact ⟨_, ⟨root, rfl⟩, _, ⟨indexable_of_get inner, rfl⟩, _, ⟨inner, rfl⟩, _, rfl⟩

/-- `validate` returns exactly on regular documents. -/
theorem validate_ok_iff (secretsCheck : Bytes → Option Bytes) (tostring : Option Doc → Bytes)
    {inv : Doc} (table : inv.isTable = true) :
    (∃ errors, validate secretsCheck tostring inv = .ok errors) ↔ Regular inv := by
  unfold validate
  simp only [exists_bind]
  constructor
  · rintro ⟨reworded, schema, root, ranRoot, secrets, ranSecrets, vars, ranVars, -⟩
    have each := collect_ok_iff.mp ⟨reworded, schema⟩
    refine ⟨secretMapErrors_ok_iff.mp ⟨root, ranRoot⟩, fun entry member => ?_,
      fun entry member => ?_, fun entry member nonempty bad => ?_⟩
    · exact targetSecretErrors_ok_iff.mp (collect_ok_iff.mp ⟨secrets, ranSecrets⟩ entry member)
    · exact targetVarErrors_ok_iff.mp (collect_ok_iff.mp ⟨vars, ranVars⟩ entry member)
    · obtain ⟨e, inside, matched⟩ := backend_token_iff.mpr ⟨entry, member, nonempty, bad, rfl⟩
      obtain ⟨own, ran, -⟩ := exists_bind.mp (each e inside)
      apply (rewordBackend_ok_iff table).mp ⟨own, ran⟩
      rw [rewordDisabled_pointer]
      exact matched
  · intro regular
    have reworded : ∃ r, collect
        (fun e => do return [← rewordBackend tostring inv (rewordDisabled e)])
        (check inventorySchema inv) = .ok r := by
      apply collect_ok_iff.mpr
      intro e inside
      have ran : ∃ e', rewordBackend tostring inv (rewordDisabled e) = .ok e' := by
        apply (rewordBackend_ok_iff table).mpr
        intro token matched
        rw [rewordDisabled_pointer] at matched
        obtain ⟨entry, member, nonempty, bad, rfl⟩ := backend_token_iff.mp ⟨e, inside, matched⟩
        exact regular.backends entry member nonempty bad
      obtain ⟨e', ran⟩ := ran
      exact exists_bind.mpr ⟨e', ran, _, rfl⟩
    obtain ⟨reworded, schema⟩ := reworded
    obtain ⟨root, ranRoot⟩ := secretMapErrors_ok_iff.mpr regular.rootSecrets
    obtain ⟨secrets, ranSecrets⟩ := collect_ok_iff.mpr fun entry member =>
      targetSecretErrors_ok_iff.mpr (regular.targetSecrets entry member)
    obtain ⟨vars, ranVars⟩ := collect_ok_iff.mpr fun entry member =>
      targetVarErrors_ok_iff.mpr (regular.targetVars entry member)
    exact ⟨reworded, schema, root, ranRoot, secrets, ranSecrets, vars, ranVars, _, rfl⟩

end Qwe.Schema
