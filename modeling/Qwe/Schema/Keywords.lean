import Qwe.Lua.RoundTrip
import Qwe.Template.Check
import Qwe.Yaml.Lookup

/-!
# Decoded documents against schemas

The keywords of `third_party/lua-schema` that the kernel's own schemas use, with its
`basic` output and the hooks that `src/kernel/lua/validate.lua` sets: an object is a
table with the map metatable and an array one with the array metatable, so that an
`!encrypted` value is neither.

A schema is the list of its keywords.  lua-schema visits them in the order of
`pairs`, which Lua leaves open; here they have the order of the file.
-/

set_option autoImplicit false

namespace Qwe.Schema

open Qwe.Lua (Number Value Decoded)
open Qwe.Redact (Bytes)
open Qwe.Template (bytes esc)

/-- A decoded document. -/
inductive Doc where
  | null
  | boolean (b : Bool)
  | number (n : Number)
  | string (s : Bytes)
  | secret (envelope : Bytes)
  | array (items : List Doc)
  | map (fields : List (Bytes × Doc))

namespace Doc

mutual

/-- The Lua value that stands for a document. -/
def value : Doc → Value
  | .null => Lua.null
  | .boolean b => .boolean b
  | .number n => .number n
  | .string s => .string s
  | .secret s => .secret s
  | .array items => .array (itemValues items)
  | .map fields => .map (fieldValues fields)

def itemValues : List Doc → List Value
  | [] => []
  | item :: rest => item.value :: itemValues rest

def fieldValues : List (Bytes × Doc) → List (Bytes × Value)
  | [] => []
  | (key, item) :: rest => (key, item.value) :: fieldValues rest

end

/-- `type(d) == "table"` -/
def isTable : Doc → Bool
  | .secret _ => true
  | .array _ => true
  | .map _ => true
  | _ => false

/-- The value under a string key, where there is one. -/
def get (key : Bytes) : Doc → Option Doc
  | .map fields => fields.lookup key
  | .secret s => if key = bytes "value" then some (.string s) else none
  | _ => none

def field (key : String) (d : Doc) : Option Doc := d.get (bytes key)

/-- The entries of an object. -/
def fields : Doc → List (Bytes × Doc)
  | .map fields => fields
  | _ => []

end Doc

theorem exists_items {items : List Value} (each : ∀ v ∈ items, ∃ d : Doc, d.value = v) :
    ∃ docs, Doc.itemValues docs = items := by
  induction items with
  | nil => exact ⟨[], rfl⟩
  | cons v rest inductionHypothesis =>
      obtain ⟨d, own⟩ := each v (by simp)
      obtain ⟨docs, others⟩ := inductionHypothesis fun v member => each v (by simp [member])
      exact ⟨d :: docs, by rw [Doc.itemValues, own, others]⟩

theorem exists_fields {fields : List (Bytes × Value)}
    (each : ∀ entry ∈ fields, ∃ d : Doc, d.value = entry.2) :
    ∃ docs, Doc.fieldValues docs = fields := by
  induction fields with
  | nil => exact ⟨[], rfl⟩
  | cons entry rest inductionHypothesis =>
      obtain ⟨d, own⟩ := each entry (by simp)
      obtain ⟨docs, others⟩ := inductionHypothesis fun v member => each v (by simp [member])
      exact ⟨(entry.1, d) :: docs, by rw [Doc.fieldValues, own, others]⟩

/-- Every value that the decoder makes is a document. -/
theorem exists_doc {depth : Nat} {v : Value} (decoded : Decoded depth v) : ∃ d : Doc, d.value = v := by
  induction decoded with
  | string s => exact ⟨.string s, rfl⟩
  | number n => exact ⟨.number n, rfl⟩
  | boolean b => exact ⟨.boolean b, rfl⟩
  | null => exact ⟨.null, rfl⟩
  | secret s => exact ⟨.secret s, rfl⟩
  | array shallow each inductionHypothesis =>
      obtain ⟨docs, rfl⟩ := exists_items inductionHypothesis
      exact ⟨.array docs, rfl⟩
  | map shallow nodup each inductionHypothesis =>
      obtain ⟨docs, rfl⟩ := exists_fields inductionHypothesis
      exact ⟨.map docs, rfl⟩

/-! ## Outputs -/

/-- A line of the `basic` output that says what is wrong. -/
structure Output where
  instanceLocation : Bytes
  keywordLocation : Bytes
  error : Option Bytes

/-- A keyword, in a schema whose own location is the first argument and whose
subschemas are located under the second, on the value at the third. -/
abbrev Keyword := Bytes → Bytes → Bytes → Doc → List Output

/-- `_validate`: what the keywords say, one after the other.  The value is valid if
that is nothing. -/
def outputs (schema : List Keyword) (own base pointer : Bytes) (d : Doc) : List Output :=
  schema.flatMap fun keyword => keyword own base pointer d

/-- A subschema, under the tokens that lead to it. -/
def sub (schema : List Keyword) (location pointer : Bytes) (d : Doc) : List Output :=
  outputs schema location location pointer d

def under (location : Bytes) (token : String) : Bytes := location ++ bytes "/" ++ bytes token

/-- `_mk_output` of a value that fails. -/
def failed (own pointer : Bytes) (keyword : String) (message : Bytes) : Output :=
  ⟨pointer, under own keyword, some message⟩

/-- `{"$ref": …}`: the keywords are taken over, their subschemas are located behind it. -/
def ref (schema : List Keyword) : List Keyword :=
  schema.map fun keyword own base pointer d => keyword own (under base "$ref") pointer d

/-- The schema `false` -/
def never : List Keyword := [fun own _ pointer _ => [⟨pointer, own, none⟩]]

/-! ## Keywords for any value -/

inductive JsonType where
  | boolean
  | number
  | integer
  | string
  | array
  | object

def JsonType.text : JsonType → Bytes
  | .boolean => bytes "boolean"
  | .number => bytes "number"
  | .integer => bytes "integer"
  | .string => bytes "string"
  | .array => bytes "array"
  | .object => bytes "object"

/-- `math.tointeger` of `compat53.lua` succeeds. -/
def isInteger : Number → Bool
  | .finite q => q.den == 1 && -2 ^ 53 ≤ q && q ≤ 2 ^ 53
  | _ => false

/-- `isa` -/
def JsonType.admits : JsonType → Doc → Bool
  | .boolean, .boolean _ => true
  | .number, .number _ => true
  | .integer, .number n => isInteger n
  | .string, .string _ => true
  | .array, .array _ => true
  | .object, .map _ => true
  | _, _ => false

def type (types : List JsonType) : Keyword := fun own _ pointer d =>
  if types.any (·.admits d) then []
  else [failed own pointer "type"
    (bytes "must be " ++ (bytes ", ").intercalate (types.map JsonType.text))]

/-- `data == s` -/
def Doc.equals (s : Bytes) : Doc → Bool
  | .string t => t == s
  | _ => false

/-- `enum` of strings -/
def enum (allowed : List Bytes) : Keyword := fun own _ pointer d =>
  if allowed.any d.equals then []
  else [failed own pointer "enum" (bytes "must be equal to one of the allowed values")]

/-- `const` of a string -/
def const (s : Bytes) : Keyword := fun own _ pointer d =>
  if d.equals s then [] else [failed own pointer "const" (bytes "must be equal to constant")]

def allOf (schemas : List (List Keyword)) : Keyword := fun own base pointer d =>
  let inner := (schemas.zipIdx.map fun entry =>
    sub entry.1 (under (under base "allOf") (toString entry.2)) pointer d).flatten
  if inner.isEmpty then []
  else failed own pointer "allOf" (bytes "must match all schema in allOf") :: inner

def not_ (schema : List Keyword) : Keyword := fun own base pointer d =>
  if (sub schema (under base "not") pointer d).isEmpty then
    [failed own pointer "not" (bytes "must NOT be valid")]
  else []

/-- `if`, with `then` and `else` where the schema has them. -/
def if_ (condition then_ else_ : List Keyword) : Keyword := fun _ base pointer d =>
  if (sub condition (under base "if") pointer d).isEmpty then
    sub then_ (under base "then") pointer d
  else sub else_ (under base "else") pointer d

/-! ## Keywords for strings and numbers -/

/-- `utf8.len` of `compat53.lua`, where the string is UTF-8: its bytes that do not
continue a character. -/
def utf8Length (s : Bytes) : Nat := s.countP fun b => !(128 ≤ b && b < 192)

def minLength (min : Nat) : Keyword := fun own _ pointer d =>
  match d with
  | .string s =>
      if min ≤ utf8Length s then []
      else [failed own pointer "minLength"
        (bytes "must NOT have fewer than " ++ bytes (toString min) ++ bytes " characters")]
  | _ => []

/-- `n >= min`, which a NaN is not. -/
def atLeast (n : Number) (min : Int) : Bool :=
  match n with
  | .finite q => decide ((min : Rat) ≤ q)
  | .infinite negative => !negative
  | .nan => false

def minimum (min : Int) : Keyword := fun own _ pointer d =>
  match d with
  | .number n =>
      if atLeast n min then []
      else [failed own pointer "minimum" (bytes "must be >= " ++ bytes (toString min))]
  | _ => []

/-! ## Keywords for objects -/

def properties (props : List (String × List Keyword)) : Keyword := fun _ base pointer d =>
  d.fields.flatMap fun entry =>
    match props.find? fun p => bytes p.1 == entry.1 with
    | some p => sub p.2 (under (under base "properties") p.1) (pointer ++ bytes "/" ++ esc entry.1)
        entry.2
    | none => []

/-- The keys that are not among the schema's `properties`. -/
def additionalProperties (known : List String) (schema : List Keyword) : Keyword :=
  fun _ base pointer d =>
    (d.fields.filter fun entry => !(known.map bytes).contains entry.1).flatMap fun entry =>
      sub schema (under base "additionalProperties") (pointer ++ bytes "/" ++ esc entry.1) entry.2

def required (names : List String) : Keyword := fun own _ pointer d =>
  match d with
  | .map fields =>
      (names.filter fun name => (fields.lookup (bytes name)).isNone).map fun name =>
        failed own pointer "required" (bytes "must have required property " ++ bytes name)
  | _ => []

/-! ## Where the outputs stand

Some output of a value that fails is not a mere line of `allOf`.  An output is told
from those by the end of its keyword location. -/

/-- The location does not end like `allOf`, `anyOf` or `oneOf`. -/
def Plain (location : Bytes) : Prop := location.getLast? ≠ some 102

instance (location : Bytes) : Decidable (Plain location) := inferInstanceAs (Decidable (_ ≠ _))

def Speaks (keyword : Keyword) : Prop :=
  ∀ own base pointer d, Plain own → keyword own base pointer d ≠ [] →
    ∃ o ∈ keyword own base pointer d, Plain o.keywordLocation

theorem plain_under {location : Bytes} {token : String} (plain : Plain (bytes "/" ++ bytes token)) :
    Plain (under location token) := by
  unfold Plain at *
  rw [under, List.append_assoc, List.getLast?_append]
  cases last : (bytes "/" ++ bytes token).getLast? with
  | none => exact absurd (List.append_eq_nil_iff.mp (List.getLast?_eq_none_iff.mp last)).1 (by decide)
  | some b =>
      rw [last] at plain
      simpa using plain

theorem plain_index (location : Bytes) (i : Nat) : Plain (under location (toString i)) := by
  apply plain_under
  intro last
  have member := List.mem_of_getLast? last
  rcases List.mem_append.mp member with slash | digit
  · exact absurd slash (by decide)
  · exact absurd (Yaml.isDigit_of_mem_index digit) (by decide)

theorem speaks_outputs {schema : List Keyword} (each : ∀ keyword ∈ schema, Speaks keyword)
    {own : Bytes} (plain : Plain own) {base pointer : Bytes} {d : Doc}
    (fails : outputs schema own base pointer d ≠ []) :
    ∃ o ∈ outputs schema own base pointer d, Plain o.keywordLocation := by
  have some_ : ∃ keyword ∈ schema, keyword own base pointer d ≠ [] := by
    by_contra none_
    push Not at none_
    exact fails (List.flatMap_eq_nil_iff.mpr none_)
  obtain ⟨keyword, member, reports⟩ := some_
  obtain ⟨o, inside, spoken⟩ := each keyword member own base pointer d plain reports
  exact ⟨o, List.mem_flatMap.mpr ⟨keyword, member, inside⟩, spoken⟩

/-- All that the keyword says is about the value itself, under its own name. -/
def Leaf (name : String) (keyword : Keyword) : Prop :=
  ∀ own base pointer d, ∀ o ∈ keyword own base pointer d,
    o.instanceLocation = pointer ∧ o.keywordLocation = under own name

theorem speaks_of_leaf {keyword : Keyword} {name : String} (leaf : Leaf name keyword)
    (plain : Plain (bytes "/" ++ bytes name)) : Speaks keyword := by
  intro own base pointer d _ reports
  obtain ⟨o, inside⟩ := List.exists_mem_of_ne_nil _ reports
  exact ⟨o, inside, by rw [(leaf own base pointer d o inside).2]; exact plain_under plain⟩

theorem leaf_of_verdict {keyword : Keyword} {name : String}
    (verdict : ∀ own base pointer d, keyword own base pointer d = [] ∨
      ∃ message, keyword own base pointer d = [failed own pointer name message]) :
    Leaf name keyword := by
  intro own base pointer d o inside
  rcases verdict own base pointer d with nothing | ⟨message, one⟩
  · rw [nothing] at inside
    cases inside
  · rw [one] at inside
    rw [List.mem_singleton.mp inside]
    exact ⟨rfl, rfl⟩

theorem leaf_type (types : List JsonType) : Leaf "type" (type types) := by
  apply leaf_of_verdict
  intro own base pointer d
  unfold type
  split_ifs
  · exact .inl rfl
  · exact .inr ⟨_, rfl⟩

theorem leaf_enum (allowed : List Bytes) : Leaf "enum" (enum allowed) := by
  apply leaf_of_verdict
  intro own base pointer d
  unfold enum
  split_ifs
  · exact .inl rfl
  · exact .inr ⟨_, rfl⟩

theorem leaf_const (s : Bytes) : Leaf "const" (const s) := by
  apply leaf_of_verdict
  intro own base pointer d
  unfold const
  split_ifs
  · exact .inl rfl
  · exact .inr ⟨_, rfl⟩

theorem leaf_not (schema : List Keyword) : Leaf "not" (not_ schema) := by
  apply leaf_of_verdict
  intro own base pointer d
  unfold not_
  split_ifs
  · exact .inr ⟨_, rfl⟩
  · exact .inl rfl

theorem leaf_minLength (min : Nat) : Leaf "minLength" (minLength min) := by
  apply leaf_of_verdict
  intro own base pointer d
  cases d with
  | string s =>
      rw [minLength]
      split_ifs
      · exact .inl rfl
      · exact .inr ⟨_, rfl⟩
  | _ => exact .inl rfl

theorem leaf_minimum (min : Int) : Leaf "minimum" (minimum min) := by
  apply leaf_of_verdict
  intro own base pointer d
  cases d with
  | number n =>
      rw [minimum]
      split_ifs
      · exact .inl rfl
      · exact .inr ⟨_, rfl⟩
  | _ => exact .inl rfl

theorem leaf_required (names : List String) : Leaf "required" (required names) := by
  intro own base pointer d o inside
  unfold required at inside
  cases d with
  | map fields =>
      obtain ⟨name, -, rfl⟩ := List.mem_map.mp inside
      exact ⟨rfl, rfl⟩
  | _ => cases inside

theorem speaks_type (types : List JsonType) : Speaks (type types) :=
  speaks_of_leaf (leaf_type types) (by decide)

theorem speaks_enum (allowed : List Bytes) : Speaks (enum allowed) :=
  speaks_of_leaf (leaf_enum allowed) (by decide)

theorem speaks_minLength (min : Nat) : Speaks (minLength min) :=
  speaks_of_leaf (leaf_minLength min) (by decide)

theorem speaks_minimum (min : Int) : Speaks (minimum min) :=
  speaks_of_leaf (leaf_minimum min) (by decide)

theorem speaks_required (names : List String) : Speaks (required names) :=
  speaks_of_leaf (leaf_required names) (by decide)

theorem speaks_never : ∀ keyword ∈ never, Speaks keyword := by
  intro keyword member own base pointer d plain _
  rw [List.mem_singleton.mp member]
  exact ⟨_, List.mem_singleton.mpr rfl, plain⟩

theorem speaks_ref {schema : List Keyword} (each : ∀ keyword ∈ schema, Speaks keyword) :
    ∀ keyword ∈ ref schema, Speaks keyword := by
  intro keyword member own base pointer d plain reports
  obtain ⟨inner, inside, rfl⟩ := List.mem_map.mp member
  exact each inner inside own _ pointer d plain reports

theorem speaks_allOf {schemas : List (List Keyword)}
    (each : ∀ schema ∈ schemas, ∀ keyword ∈ schema, Speaks keyword) : Speaks (allOf schemas) := by
  intro own base pointer d plain reports
  unfold allOf at reports ⊢
  dsimp only at reports ⊢
  split_ifs at reports ⊢ with valid
  · exact absurd rfl reports
  · have some_ : ∃ entry ∈ schemas.zipIdx,
        sub entry.1 (under (under base "allOf") (toString entry.2)) pointer d ≠ [] := by
      by_contra none_
      push Not at none_
      apply valid
      rw [List.isEmpty_iff, ← List.flatMap_def]
      exact List.flatMap_eq_nil_iff.mpr none_
    obtain ⟨⟨schema, i⟩, member, fails⟩ := some_
    have known : schema ∈ schemas := List.fst_mem_of_mem_zipIdx member
    obtain ⟨o, inside, spoken⟩ := speaks_outputs (each schema known) (plain_index _ i) fails
    refine ⟨o, List.mem_cons_of_mem _ ?_, spoken⟩
    rw [← List.flatMap_def]
    exact List.mem_flatMap.mpr ⟨_, member, inside⟩

theorem speaks_if {condition then_ else_ : List Keyword}
    (eachThen : ∀ keyword ∈ then_, Speaks keyword) (eachElse : ∀ keyword ∈ else_, Speaks keyword) :
    Speaks (if_ condition then_ else_) := by
  intro own base pointer d plain reports
  unfold if_ at reports ⊢
  split_ifs at reports ⊢
  · exact speaks_outputs eachThen (plain_under (by decide)) reports
  · exact speaks_outputs eachElse (plain_under (by decide)) reports

theorem speaks_properties {props : List (String × List Keyword)}
    (names : ∀ p ∈ props, Plain (bytes "/" ++ bytes p.1))
    (each : ∀ p ∈ props, ∀ keyword ∈ p.2, Speaks keyword) : Speaks (properties props) := by
  intro own base pointer d plain reports
  unfold properties at reports ⊢
  have some_ := reports
  rw [ne_eq, List.flatMap_eq_nil_iff] at some_
  push Not at some_
  obtain ⟨entry, member, fails⟩ := some_
  cases found : props.find? fun p => bytes p.1 == entry.1 with
  | none => simp [found] at fails
  | some p =>
      simp only [found] at fails
      have known := List.mem_of_find?_eq_some found
      obtain ⟨o, inside, spoken⟩ := speaks_outputs (each p known) (plain_under (names p known)) fails
      exact ⟨o, List.mem_flatMap.mpr ⟨entry, member, by simp only [found]; exact inside⟩, spoken⟩

theorem speaks_additionalProperties {known : List String} {schema : List Keyword}
    (each : ∀ keyword ∈ schema, Speaks keyword) : Speaks (additionalProperties known schema) := by
  intro own base pointer d plain reports
  unfold additionalProperties at reports ⊢
  have some_ := reports
  rw [ne_eq, List.flatMap_eq_nil_iff] at some_
  push Not at some_
  obtain ⟨entry, member, fails⟩ := some_
  obtain ⟨o, inside, spoken⟩ := speaks_outputs each (plain_under (by decide)) fails
  exact ⟨o, List.mem_flatMap.mpr ⟨entry, member, inside⟩, spoken⟩

/-! ## Which value an output is about -/

/-- The location of the value itself or of something inside it. -/
def Inside (pointer location : Bytes) : Prop :=
  ∃ rest, location = pointer ++ rest ∧ (rest = [] ∨ rest.head? = some 47)

theorem Inside.self (pointer : Bytes) : Inside pointer pointer := ⟨[], by simp, .inl rfl⟩

theorem Inside.entry {pointer token location : Bytes}
    (inner : Inside (pointer ++ bytes "/" ++ token) location) : Inside pointer location := by
  obtain ⟨rest, rfl, -⟩ := inner
  exact ⟨bytes "/" ++ token ++ rest, by simp, .inr rfl⟩

def Local (keyword : Keyword) : Prop :=
  ∀ own base pointer d, ∀ o ∈ keyword own base pointer d, Inside pointer o.instanceLocation

theorem local_of_leaf {keyword : Keyword} {name : String} (leaf : Leaf name keyword) :
    Local keyword := by
  intro own base pointer d o inside
  rw [(leaf own base pointer d o inside).1]
  exact Inside.self pointer

theorem local_never : ∀ keyword ∈ never, Local keyword := by
  intro keyword member own base pointer d o inside
  rw [List.mem_singleton.mp member] at inside
  rw [List.mem_singleton.mp inside]
  exact Inside.self pointer

theorem local_sub {schema : List Keyword} (each : ∀ keyword ∈ schema, Local keyword)
    {own base pointer : Bytes} {d : Doc} {o : Output} (inside : o ∈ outputs schema own base pointer d) :
    Inside pointer o.instanceLocation := by
  obtain ⟨keyword, member, here⟩ := List.mem_flatMap.mp inside
  exact each keyword member own base pointer d o here

theorem mem_properties {props : List (String × List Keyword)} {own base pointer : Bytes} {d : Doc}
    {o : Output} (inside : o ∈ properties props own base pointer d) :
    ∃ entry ∈ d.fields, ∃ p, props.find? (fun p => bytes p.1 == entry.1) = some p ∧
      o ∈ sub p.2 (under (under base "properties") p.1) (pointer ++ bytes "/" ++ esc entry.1)
        entry.2 := by
  obtain ⟨entry, member, here⟩ := List.mem_flatMap.mp inside
  cases found : props.find? fun p => bytes p.1 == entry.1 with
  | none => simp [found] at here
  | some p => exact ⟨entry, member, p, found, by simpa [found] using here⟩

theorem mem_additionalProperties {known : List String} {schema : List Keyword}
    {own base pointer : Bytes} {d : Doc} {o : Output}
    (inside : o ∈ additionalProperties known schema own base pointer d) :
    ∃ entry ∈ d.fields, entry.1 ∉ known.map bytes ∧
      o ∈ sub schema (under base "additionalProperties") (pointer ++ bytes "/" ++ esc entry.1)
        entry.2 := by
  obtain ⟨entry, member, here⟩ := List.mem_flatMap.mp inside
  obtain ⟨present, other⟩ := List.mem_filter.mp member
  exact ⟨entry, present, by simpa using other, here⟩

theorem mem_allOf {schemas : List (List Keyword)} {own base pointer : Bytes} {d : Doc} {o : Output}
    (inside : o ∈ allOf schemas own base pointer d) :
    o = failed own pointer "allOf" (bytes "must match all schema in allOf") ∨
      ∃ schema ∈ schemas, ∃ location, o ∈ sub schema location pointer d := by
  unfold allOf at inside
  dsimp only at inside
  split_ifs at inside
  · cases inside
  · rcases List.mem_cons.mp inside with rfl | inner
    · exact .inl rfl
    · rw [← List.flatMap_def] at inner
      obtain ⟨entry, member, here⟩ := List.mem_flatMap.mp inner
      exact .inr ⟨entry.1, List.fst_mem_of_mem_zipIdx member, _, here⟩

theorem mem_if {condition then_ else_ : List Keyword} {own base pointer : Bytes} {d : Doc}
    {o : Output} (inside : o ∈ if_ condition then_ else_ own base pointer d) :
    ∃ location, o ∈ sub then_ location pointer d ∨ o ∈ sub else_ location pointer d := by
  unfold if_ at inside
  split_ifs at inside
  · exact ⟨_, .inl inside⟩
  · exact ⟨_, .inr inside⟩

end Qwe.Schema
