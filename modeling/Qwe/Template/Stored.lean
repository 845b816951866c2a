import Qwe.Template.Outputs

/-!
# What `store` returns

The JSON text that `store` hands to `result.json`, as `json.encode` of
`third_party/dkjson/dkjson.lua` builds it from the outputs that are not secret.
`isarray` there takes a table whose only entry is a number under `n` for an
array of that length, so such an output is not a member of anything.
-/

set_option autoImplicit false

namespace Qwe.Template

open Qwe.Redact (Bytes)

/-- A JSON value made from a flat table: an object with its members in order, or
an array with a `null` for every index up to `length`. -/
inductive Json where
  | object (members : List (Bytes × Scalar))
  | array (length : Number)
deriving DecidableEq, Repr

/-- The length that `isarray` finds in the table of these entries, if it is one. -/
def arrayLength : List (Bytes × Scalar) → Option Number
  | [] => some (.integral 0)
  | [(key, .number n)] => if key = bytes "n" then some n else none
  | _ => none

/-- `json.encode` with a `keyorder` that lists every key. -/
def encode (entries : List (Bytes × Scalar)) : Json :=
  match arrayLength entries with
  | some length => .array length
  | none => .object entries

def Json.members : Json → List (Bytes × Scalar)
  | .object members => members
  | .array _ => []

/-- The text that `store` returns. -/
def Stored.json (stored : Stored) : Option Json := stored.shown.map encode

/-- The step or its plugin declares output `key` secret. -/
def DeclaredSecret (plugins : Plugins) (step : Resolved) (key : Bytes) : Prop :=
  key ∈ step.secretOutputs ∨
    ∃ plugin declared, step.uses = some plugin ∧ plugins.lookup plugin = some declared ∧
      declared.lookup key = some true

/-- The step reports nothing open, or only a number called `n`. -/
def OnlyNumberN (plugins : Plugins) (step : Resolved) (reported : Table Bytes Data) : Prop :=
  ∀ key value, reported.lookup key = some (.scalar value) → ¬ DeclaredSecret plugins step key →
    key = bytes "n" ∧ ∃ n, value = .number n

variable {plugins : Plugins} {outputs : Outputs} {step : Resolved} {reported : Table Bytes Data}
  {key : Bytes} {value : Scalar}

theorem isSecretOutput_iff :
    isSecretOutput plugins step key = true ↔ DeclaredSecret plugins step key := by
  rw [isSecretOutput, Bool.or_eq_true, List.contains_iff_mem, Option.any_eq_true]
  apply or_congr_right
  constructor
  · rintro ⟨declared, found, secret⟩
    obtain ⟨plugin, used, known⟩ := Option.bind_eq_some_iff.mp found
    exact ⟨plugin, declared, used, known, beq_iff_eq.mp secret⟩
  · rintro ⟨plugin, declared, used, known, secret⟩
    exact ⟨declared, Option.bind_eq_some_iff.mpr ⟨plugin, used, known⟩, beq_iff_eq.mpr secret⟩

/-! ## Which outputs count -/

theorem lookup_keptOutputs_eq_some :
    (keptOutputs reported).lookup key = some value ↔
      reported.lookup key = some (.scalar value) := by
  rw [lookup_keptOutputs, Option.bind_eq_some_iff]
  constructor
  · rintro ⟨data, found, scalar⟩
    cases data with
    | scalar other =>
        obtain rfl : other = value := Option.some.inj scalar
        exact found
    | null => cases scalar
    | secret envelope => cases scalar
    | array items => cases scalar
    | map entries => cases scalar
  · intro found
    exact ⟨.scalar value, found, rfl⟩

theorem keptOutputs_nonempty (counts : reported.lookup key = some (.scalar value)) :
    ¬ (keptOutputs reported).entries.isEmpty = true := by
  intro empty
  have found := lookup_keptOutputs_eq_some.mpr counts
  rw [lookup_of_isEmpty empty] at found
  cases found

/-- The outputs that are not secret, in the order of their keys. -/
def openOutputs (plugins : Plugins) (step : Resolved) (reported : Table Bytes Data) :
    List (Bytes × Scalar) :=
  (sorted ((keptOutputs reported).keys.filter fun key =>
    !isSecretOutput plugins step key)).filterMap fun key =>
      ((keptOutputs reported).lookup key).map (key, ·)

theorem mem_openOutputs :
    (key, value) ∈ openOutputs plugins step reported ↔
      reported.lookup key = some (.scalar value) ∧ ¬ DeclaredSecret plugins step key := by
  rw [← lookup_keptOutputs_eq_some, ← isSecretOutput_iff, openOutputs, List.mem_filterMap]
  constructor
  · rintro ⟨name, listed, same⟩
    obtain ⟨found, known, pair⟩ := Option.map_eq_some_iff.mp same
    cases pair
    rw [sorted, List.mem_insertionSort, List.mem_filter] at listed
    exact ⟨known, by simpa using listed.2⟩
  · rintro ⟨known, notSecret⟩
    refine ⟨key, ?_, by rw [known]; rfl⟩
    have present : key ∈ (keptOutputs reported).keys := by
      rw [← AList.mem_keys, ← AList.lookup_isSome, known]
      rfl
    rw [sorted, List.mem_insertionSort, List.mem_filter]
    exact ⟨present, by simpa using notSecret⟩

/-! ## What `store` makes of them -/

theorem store_masked (counts : reported.lookup key = some (.scalar value))
    (secret : DeclaredSecret plugins step key) :
    envString value ∈ (store plugins outputs step reported).masked := by
  rw [store, if_neg (keptOutputs_nonempty counts)]
  apply List.mem_map_of_mem (f := fun entry : Bytes × Scalar => envString entry.2)
    (a := (key, value))
  rw [List.mem_filter]
  exact ⟨Table.lookup_eq_some_iff.mp (lookup_keptOutputs_eq_some.mpr counts),
    isSecretOutput_iff.mpr secret⟩

/-- Only open outputs are shown. -/
theorem shown_open {entries : List (Bytes × Scalar)}
    (shown : (store plugins outputs step reported).shown = some entries) :
    entries = openOutputs plugins step reported := by
  rw [store] at shown
  split_ifs at shown with empty
  simp only at shown
  split_ifs at shown with none_
  exact (Option.some.inj shown).symm

/-- Every open output is shown. -/
theorem open_shown (present : (key, value) ∈ openOutputs plugins step reported) :
    (store plugins outputs step reported).shown = some (openOutputs plugins step reported) := by
  have counts := (mem_openOutputs.mp present).1
  rw [store, if_neg (keptOutputs_nonempty counts)]
  apply if_neg
  intro none_
  rw [openOutputs, none_] at present
  cases present

theorem outputAt_store (counts : reported.lookup key = some (.scalar value)) {id : Bytes}
    (own : step.id = some id) :
    outputAt (store plugins outputs step reported).outputs id key = some value := by
  rw [store_outputs, if_neg (keptOutputs_nonempty counts), own]
  simp only [outputAt, AList.lookup_insert, Option.bind_some]
  exact lookup_keptOutputs_eq_some.mpr counts

theorem members_subset {entries : List (Bytes × Scalar)} :
    ∀ entry ∈ (encode entries).members, entry ∈ entries := by
  intro entry present
  unfold encode at present
  split at present
  · cases present
  · exact present

/-- A table is taken for an array only when it holds at most a number called `n`. -/
theorem arrayLength_some {entries : List (Bytes × Scalar)} {length : Number}
    (isArray : arrayLength entries = some length) (present : (key, value) ∈ entries) :
    key = bytes "n" ∧ ∃ n, value = .number n := by
  unfold arrayLength at isArray
  split at isArray
  · cases present
  · rename_i name n
    split_ifs at isArray with named
    obtain ⟨rfl, rfl⟩ := Prod.mk.inj (List.mem_singleton.mp present)
    exact ⟨named, n, rfl⟩
  · cases isArray

/-- Unless there is only a number called `n`, the JSON is the object of the open outputs. -/
theorem json_object (counts : reported.lookup key = some (.scalar value))
    (open_ : ¬ DeclaredSecret plugins step key) (more : ¬ OnlyNumberN plugins step reported) :
    (store plugins outputs step reported).json
      = some (.object (openOutputs plugins step reported)) := by
  have shown : (store plugins outputs step reported).shown
      = some (openOutputs plugins step reported) :=
    open_shown (mem_openOutputs.mpr ⟨counts, open_⟩)
  rw [Stored.json, shown, Option.map_some, encode]
  cases isArray : arrayLength (openOutputs plugins step reported) with
  | none => rfl
  | some length =>
      refine absurd (fun other scalar counted notSecret => ?_) more
      exact arrayLength_some isArray (mem_openOutputs.mpr ⟨counted, notSecret⟩)

theorem json_members_open {json : Json}
    (returned : (store plugins outputs step reported).json = some json)
    (present : (key, value) ∈ json.members) : ¬ DeclaredSecret plugins step key := by
  obtain ⟨entries, shown, rfl⟩ := Option.map_eq_some_iff.mp returned
  have entry := members_subset _ present
  rw [shown_open shown] at entry
  exact (mem_openOutputs.mp entry).2

end Qwe.Template
