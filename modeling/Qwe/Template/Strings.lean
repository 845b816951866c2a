import Qwe.Template.Accepted

/-!
# The strings of a step

Validation and evaluation walk a `with:` value separately.  Both meet the same
strings: `scan` passes only where each of them passes, and `copy` puts each of
them through `substitute`, unless it comes to an envelope and raises.
-/

set_option autoImplicit false

namespace Qwe.Template

open Qwe.Redact (Bytes)

mutual

/-- The strings anywhere in a value, in the order of `copy`. -/
def Data.strings : Data → List Bytes
  | .scalar (.string s) => [s]
  | .scalar _ => []
  | .null => []
  | .secret envelope => [envelope]
  | .array items => Data.itemStrings items
  | .map entries => Data.entryStrings entries

def Data.itemStrings : List Data → List Bytes
  | [] => []
  | item :: rest => item.strings ++ Data.itemStrings rest

def Data.entryStrings : List (Bytes × Data) → List Bytes
  | [] => []
  | (_, value) :: rest => value.strings ++ Data.entryStrings rest

end

/-! ## What `copy` does to them -/

section Copy

variable (resolver : Expr → Found)

mutual

theorem copyData_strings : ∀ {value : Data} {copied : Data × List Bytes},
    copyData resolver value = some copied →
      copied.1.strings = value.strings.map (substituted resolver)
  | .scalar (.string _), _, rfl => rfl
  | .scalar (.number _), _, rfl => rfl
  | .scalar (.boolean _), _, rfl => rfl
  | .null, _, rfl => rfl
  | .array _, _, ran => by
      obtain ⟨inner, copies, rfl⟩ := Option.map_eq_some_iff.mp ran
      exact copyItems_strings copies
  | .map _, _, ran => by
      obtain ⟨inner, copies, rfl⟩ := Option.map_eq_some_iff.mp ran
      exact copyEntries_strings copies

theorem copyItems_strings : ∀ {items : List Data} {copied : List Data × List Bytes},
    copyItems resolver items = some copied →
      Data.itemStrings copied.1 = (Data.itemStrings items).map (substituted resolver)
  | [], _, rfl => rfl
  | item :: rest, _, ran => by
      obtain ⟨first, copiesFirst, ran⟩ := Option.bind_eq_some_iff.mp ran
      obtain ⟨others, copiesOthers, same⟩ := Option.bind_eq_some_iff.mp ran
      obtain rfl := Option.some.inj same
      rw [Data.itemStrings, Data.itemStrings, List.map_append, copyData_strings copiesFirst,
        copyItems_strings copiesOthers]

theorem copyEntries_strings : ∀ {entries : List (Bytes × Data)}
    {copied : List (Bytes × Data) × List Bytes}, copyEntries resolver entries = some copied →
      Data.entryStrings copied.1 = (Data.entryStrings entries).map (substituted resolver)
  | [], _, rfl => rfl
  | (key, value) :: rest, _, ran => by
      obtain ⟨first, copiesFirst, ran⟩ := Option.bind_eq_some_iff.mp ran
      obtain ⟨others, copiesOthers, same⟩ := Option.bind_eq_some_iff.mp ran
      obtain rfl := Option.some.inj same
      rw [Data.entryStrings, Data.entryStrings, List.map_append, copyData_strings copiesFirst,
        copyEntries_strings copiesOthers]

end

mutual

theorem copyData_masked : ∀ {value : Data} {copied : Data × List Bytes},
    copyData resolver value = some copied →
      copied.2 = value.strings.flatMap fun s => (substitute resolver s).masked
  | .scalar (.string _), _, rfl => by rw [Data.strings, List.flatMap_singleton]
  | .scalar (.number _), _, rfl => rfl
  | .scalar (.boolean _), _, rfl => rfl
  | .null, _, rfl => rfl
  | .array _, _, ran => by
      obtain ⟨inner, copies, rfl⟩ := Option.map_eq_some_iff.mp ran
      exact copyItems_masked copies
  | .map _, _, ran => by
      obtain ⟨inner, copies, rfl⟩ := Option.map_eq_some_iff.mp ran
      exact copyEntries_masked copies

theorem copyItems_masked : ∀ {items : List Data} {copied : List Data × List Bytes},
    copyItems resolver items = some copied →
      copied.2 = (Data.itemStrings items).flatMap fun s => (substitute resolver s).masked
  | [], _, rfl => rfl
  | item :: rest, _, ran => by
      obtain ⟨first, copiesFirst, ran⟩ := Option.bind_eq_some_iff.mp ran
      obtain ⟨others, copiesOthers, same⟩ := Option.bind_eq_some_iff.mp ran
      obtain rfl := Option.some.inj same
      rw [Data.itemStrings, List.flatMap_append, copyData_masked copiesFirst,
        copyItems_masked copiesOthers]

theorem copyEntries_masked : ∀ {entries : List (Bytes × Data)}
    {copied : List (Bytes × Data) × List Bytes}, copyEntries resolver entries = some copied →
      copied.2 = (Data.entryStrings entries).flatMap fun s => (substitute resolver s).masked
  | [], _, rfl => rfl
  | (key, value) :: rest, _, ran => by
      obtain ⟨first, copiesFirst, ran⟩ := Option.bind_eq_some_iff.mp ran
      obtain ⟨others, copiesOthers, same⟩ := Option.bind_eq_some_iff.mp ran
      obtain rfl := Option.some.inj same
      rw [Data.entryStrings, List.flatMap_append, copyData_masked copiesFirst,
        copyEntries_masked copiesOthers]

end

theorem copyWith_strings {with_ : Option (List (Bytes × Data))}
    {copied : Option (List (Bytes × Data)) × List Bytes}
    (ran : copyWith resolver with_ = some copied) :
    (copied.1.map Data.entryStrings).getD []
      = ((with_.map Data.entryStrings).getD []).map (substituted resolver) := by
  cases with_ with
  | none =>
      obtain rfl := Option.some.inj ran
      rfl
  | some entries =>
      obtain ⟨inner, copies, rfl⟩ := Option.map_eq_some_iff.mp ran
      exact copyEntries_strings resolver copies

theorem copyWith_masked {with_ : Option (List (Bytes × Data))}
    {copied : Option (List (Bytes × Data)) × List Bytes}
    (ran : copyWith resolver with_ = some copied) :
    copied.2 = ((with_.map Data.entryStrings).getD []).flatMap
      fun s => (substitute resolver s).masked := by
  cases with_ with
  | none =>
      obtain rfl := Option.some.inj ran
      rfl
  | some entries =>
      obtain ⟨inner, copies, rfl⟩ := Option.map_eq_some_iff.mp ran
      exact copyEntries_masked resolver copies

end Copy

/-! ## When `copy` returns -/

mutual

/-- An envelope stands somewhere in a value. -/
def Data.holdsEnvelope : Data → Bool
  | .secret _ => true
  | .array items => Data.itemsHoldEnvelope items
  | .map entries => Data.entriesHoldEnvelope entries
  | _ => false

def Data.itemsHoldEnvelope : List Data → Bool
  | [] => false
  | item :: rest => item.holdsEnvelope || Data.itemsHoldEnvelope rest

def Data.entriesHoldEnvelope : List (Bytes × Data) → Bool
  | [] => false
  | (_, value) :: rest => value.holdsEnvelope || Data.entriesHoldEnvelope rest

end

/-- An envelope stands in `with:`. -/
def Step.holdsEnvelope (step : Step) : Bool := step.with_.any Data.entriesHoldEnvelope

section Returns

variable (resolver : Expr → Found)

mutual

/-- `copy` raises at an envelope and nowhere else. -/
theorem isSome_copyData : ∀ value : Data,
    (copyData resolver value).isSome = !value.holdsEnvelope
  | .scalar (.string _) => rfl
  | .scalar (.number _) => rfl
  | .scalar (.boolean _) => rfl
  | .null => rfl
  | .secret _ => rfl
  | .array items => by rw [copyData, Option.isSome_map, isSome_copyItems, Data.holdsEnvelope]
  | .map entries => by rw [copyData, Option.isSome_map, isSome_copyEntries, Data.holdsEnvelope]

theorem isSome_copyItems : ∀ items : List Data,
    (copyItems resolver items).isSome = !Data.itemsHoldEnvelope items
  | [] => rfl
  | item :: rest => by
      rw [copyItems, Data.itemsHoldEnvelope, Bool.not_or, ← isSome_copyData item,
        ← isSome_copyItems rest]
      cases copyData resolver item with
      | none => rfl
      | some first => cases copyItems resolver rest <;> rfl

theorem isSome_copyEntries : ∀ entries : List (Bytes × Data),
    (copyEntries resolver entries).isSome = !Data.entriesHoldEnvelope entries
  | [] => rfl
  | (key, value) :: rest => by
      rw [copyEntries, Data.entriesHoldEnvelope, Bool.not_or, ← isSome_copyData value,
        ← isSome_copyEntries rest]
      cases copyData resolver value with
      | none => rfl
      | some first => cases copyEntries resolver rest <;> rfl

end

theorem isSome_copyWith (step : Step) :
    (copyWith resolver step.with_).isSome = !step.holdsEnvelope := by
  rw [Step.holdsEnvelope]
  cases step.with_ with
  | none => rfl
  | some entries => rw [copyWith, Option.isSome_map, isSome_copyEntries, Option.any_some]

end Returns

/-! ## What `scan` asks of them -/

section Scan

section Subset

variable (workflow : Workflow) (inventory : Inventory)

mutual

/-- What each string is scanned for is among what `scan` reports. -/
theorem scanText_subset_scan : ∀ (scope : Scope) (pointer : Bytes) (value : Data),
    scope.isRun = false → ∀ s ∈ value.strings, ∃ here,
      scanText workflow inventory scope here s ⊆ scan workflow inventory scope pointer value
  | scope, pointer, .scalar (.string text), _, s, present => by
      obtain rfl := List.mem_singleton.mp present
      exact ⟨pointer, fun _ reported => reported⟩
  | scope, pointer, .secret envelope, notRun, s, present => by
      obtain rfl := List.mem_singleton.mp present
      rw [scan, ← notRun]
      exact ⟨_, fun _ reported => reported⟩
  | scope, pointer, .array items, notRun, s, present => by
      rw [scan, ← notRun]
      exact scanText_subset_scanItems scope pointer 0 items notRun s present
  | scope, pointer, .map entries, notRun, s, present => by
      rw [scan, ← notRun]
      exact scanText_subset_scanEntries scope pointer entries notRun s present
  | _, _, .scalar (.number _), _, _, present => nomatch present
  | _, _, .scalar (.boolean _), _, _, present => nomatch present
  | _, _, .null, _, _, present => nomatch present

theorem scanText_subset_scanItems : ∀ (scope : Scope) (pointer : Bytes) (i : Nat)
    (items : List Data), scope.isRun = false → ∀ s ∈ Data.itemStrings items, ∃ here,
      scanText workflow inventory scope here s ⊆ scanItems workflow inventory scope pointer i items
  | _, _, _, [], _, _, present => nomatch present
  | scope, pointer, i, item :: rest, notRun, s, present => by
      rw [scanItems]
      rw [Data.itemStrings, List.mem_append] at present
      rcases present with first | later
      · obtain ⟨here, inside⟩ := scanText_subset_scan scope _ item notRun s first
        exact ⟨here, fun p reported => List.mem_append_left _ (inside reported)⟩
      · obtain ⟨here, inside⟩ := scanText_subset_scanItems scope pointer (i + 1) rest notRun s later
        exact ⟨here, fun p reported => List.mem_append_right _ (inside reported)⟩

theorem scanText_subset_scanEntries : ∀ (scope : Scope) (pointer : Bytes)
    (entries : List (Bytes × Data)), scope.isRun = false → ∀ s ∈ Data.entryStrings entries, ∃ here,
      scanText workflow inventory scope here s
        ⊆ scanEntries workflow inventory scope pointer entries
  | _, _, [], _, _, present => nomatch present
  | scope, pointer, (key, value) :: rest, notRun, s, present => by
      rw [scanEntries]
      rw [Data.entryStrings, List.mem_append] at present
      rcases present with first | later
      · obtain ⟨here, inside⟩ := scanText_subset_scan scope _ value notRun s first
        exact ⟨here, fun p reported => List.mem_append_left _ (inside reported)⟩
      · obtain ⟨here, inside⟩ := scanText_subset_scanEntries scope pointer rest notRun s later
        exact ⟨here, fun p reported => List.mem_append_right _ (inside reported)⟩

end

end Subset

variable {workflow : Workflow} {inventory : Inventory}

/-- `scan` passes only where every string does. -/
theorem scanText_of_scan {scope : Scope} {pointer : Bytes} {value : Data}
    (accepted : scan workflow inventory scope pointer value = []) (notRun : scope.isRun = false)
    {s : Bytes} (present : s ∈ value.strings) :
    ∃ here, scanText workflow inventory scope here s = [] := by
  obtain ⟨here, inside⟩ := scanText_subset_scan workflow inventory scope pointer value notRun s present
  rw [accepted] at inside
  exact ⟨here, List.subset_nil.mp inside⟩

theorem mem_scanText {scope : Scope} {pointer text : Bytes} {p : Problem}
    (reported : p ∈ scanText workflow inventory scope pointer text) :
    p ∈ scanText workflow inventory scope p.pointer text ∧ p.kind = .value := by
  obtain ⟨expr, read, found⟩ := List.mem_filterMap.mp reported
  obtain ⟨message, wrong, rfl⟩ := Option.map_eq_some_iff.mp found
  exact ⟨reported, rfl⟩

mutual

/-- `scan` reports what some string is scanned for. -/
theorem mem_scan : ∀ {scope : Scope} {pointer : Bytes} {p : Problem} (value : Data),
    scope.isRun = false → p ∈ scan workflow inventory scope pointer value →
      ∃ s ∈ value.strings, p ∈ scanText workflow inventory scope p.pointer s
  | _, _, _, .scalar (.string text), _, reported =>
      ⟨text, List.mem_singleton_self text, (mem_scanText reported).1⟩
  | _, _, _, .secret envelope, notRun, reported => by
      rw [scan, ← notRun] at reported
      exact ⟨envelope, List.mem_singleton_self envelope, (mem_scanText reported).1⟩
  | _, _, _, .array items, notRun, reported => by
      rw [scan, ← notRun] at reported
      exact mem_scanItems items notRun reported
  | _, _, _, .map entries, notRun, reported => by
      rw [scan, ← notRun] at reported
      exact mem_scanEntries entries notRun reported
  | _, _, _, .scalar (.number _), _, reported => nomatch reported
  | _, _, _, .scalar (.boolean _), _, reported => nomatch reported
  | _, _, _, .null, _, reported => nomatch reported

theorem mem_scanItems : ∀ {scope : Scope} {pointer : Bytes} {i : Nat} {p : Problem}
    (items : List Data), scope.isRun = false →
      p ∈ scanItems workflow inventory scope pointer i items →
      ∃ s ∈ Data.itemStrings items, p ∈ scanText workflow inventory scope p.pointer s
  | _, _, _, _, [], _, reported => nomatch reported
  | _, _, _, _, item :: rest, notRun, reported => by
      rw [scanItems, List.mem_append] at reported
      rw [Data.itemStrings]
      rcases reported with first | later
      · obtain ⟨s, present, here⟩ := mem_scan item notRun first
        exact ⟨s, List.mem_append_left _ present, here⟩
      · obtain ⟨s, present, here⟩ := mem_scanItems rest notRun later
        exact ⟨s, List.mem_append_right _ present, here⟩

theorem mem_scanEntries : ∀ {scope : Scope} {pointer : Bytes} {p : Problem}
    (entries : List (Bytes × Data)), scope.isRun = false →
      p ∈ scanEntries workflow inventory scope pointer entries →
      ∃ s ∈ Data.entryStrings entries, p ∈ scanText workflow inventory scope p.pointer s
  | _, _, _, [], _, reported => nomatch reported
  | _, _, _, (key, value) :: rest, notRun, reported => by
      rw [scanEntries, List.mem_append] at reported
      rw [Data.entryStrings]
      rcases reported with first | later
      · obtain ⟨s, present, here⟩ := mem_scan value notRun first
        exact ⟨s, List.mem_append_left _ present, here⟩
      · obtain ⟨s, present, here⟩ := mem_scanEntries rest notRun later
        exact ⟨s, List.mem_append_right _ present, here⟩

end

end Scan

end Qwe.Template
