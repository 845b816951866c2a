import Mathlib.Data.List.AList

/-!
# Tables

A table maps keys to values and holds a key at most once; its entries stand in
the order a traversal meets them.
-/

set_option autoImplicit false

namespace Qwe

abbrev Table (κ α : Type) := AList fun _ : κ => α

namespace Table

variable {κ α β : Type}

/-- The entries, as pairs. -/
def pairs (table : Table κ α) : List (κ × α) :=
  table.entries.map fun entry => (entry.1, entry.2)

variable [DecidableEq κ]

/-- The table of a list of pairs; the first of several entries for a key counts. -/
def ofPairs (pairs : List (κ × α)) : Table κ α :=
  (pairs.map fun entry => (⟨entry.1, entry.2⟩ : Sigma fun _ : κ => α)).toAList

/-- Sets, in `table`, every key of `source` that has a value under `f` to it. -/
def putSome (f : κ → α → Option β) (table : Table κ β) (source : Table κ α) : Table κ β :=
  source.pairs.foldl (fun table entry =>
    match f entry.1 entry.2 with
    | some value => table.insert entry.1 value
    | none => table) table

/-- Sets, in `table`, every key of `source` to its value under `f`. -/
def putAll (f : κ → α → β) (table : Table κ β) (source : Table κ α) : Table κ β :=
  putSome (fun key value => some (f key value)) table source

theorem lookup_eq_some_iff {table : Table κ α} {key : κ} {value : α} :
    table.lookup key = some value ↔ (key, value) ∈ table.pairs := by
  rw [pairs, List.mem_map]
  constructor
  · intro found
    exact ⟨⟨key, value⟩, AList.mem_lookup_iff.mp found, rfl⟩
  · rintro ⟨⟨key, value⟩, present, same⟩
    cases same
    exact AList.mem_lookup_iff.mpr present

private theorem lookup_foldl_insert (f : κ → α → Option β)
    (entries : List (Sigma fun _ : κ => α)) (distinct : entries.NodupKeys) (table : Table κ β)
    (key : κ) :
    (((entries.map fun entry => (entry.1, entry.2)).foldl (fun table entry =>
      match f entry.1 entry.2 with
      | some value => table.insert entry.1 value
      | none => table) table) : Table κ β).lookup key
      = ((entries.dlookup key).bind (f key)).or (table.lookup key) := by
  induction entries generalizing table with
  | nil => simp
  | cons entry rest inductionHypothesis =>
      obtain ⟨name, value⟩ := entry
      rw [List.nodupKeys_cons] at distinct
      rw [List.map_cons, List.foldl_cons, inductionHypothesis distinct.2]
      by_cases same : key = name
      · subst same
        have absent : rest.dlookup key = none := List.dlookup_eq_none.mpr distinct.1
        rw [absent, List.dlookup_cons_eq]
        cases result : f key value with
        | none => simp [result]
        | some new => simp [result]
      · have skipped : List.dlookup key (⟨name, value⟩ :: rest) = rest.dlookup key :=
          List.dlookup_cons_ne rest ⟨name, value⟩ same
        rw [skipped]
        cases result : f name value with
        | none => rfl
        | some new => rw [AList.lookup_insert_ne same]

/-- The source's values win; the other entries stay. -/
theorem lookup_putSome (f : κ → α → Option β) (table : Table κ β) (source : Table κ α) (key : κ) :
    (putSome f table source).lookup key
      = ((source.lookup key).bind (f key)).or (table.lookup key) :=
  lookup_foldl_insert f source.entries source.nodupKeys table key

theorem lookup_putAll (f : κ → α → β) (table : Table κ β) (source : Table κ α) (key : κ) :
    (putAll f table source).lookup key
      = ((source.lookup key).map (f key)).or (table.lookup key) := by
  rw [putAll, lookup_putSome]
  cases source.lookup key with
  | none => rfl
  | some value => rfl

/-! ## Merging several tables -/

/-- The tables put into an empty one, in turn. -/
def mergeAll (tables : List (Table κ α)) : Table κ α :=
  tables.foldl (putAll fun _ value => value) ∅

/-- No key has a value in both tables. -/
def Apart (first second : Table κ α) : Prop :=
  ∀ key, first.lookup key = none ∨ second.lookup key = none

theorem Apart.symm {first second : Table κ α} (apart : Apart first second) :
    Apart second first :=
  fun key => (apart key).symm

theorem lookup_foldl_putAll (tables : List (Table κ α)) (table : Table κ α)
    (apart : (table :: tables).Pairwise Apart) (key : κ) (value : α) :
    (tables.foldl (putAll fun _ value => value) table).lookup key = some value ↔
      ∃ source ∈ table :: tables, source.lookup key = some value := by
  induction tables generalizing table with
  | nil => simp
  | cons next rest inductionHypothesis =>
      rw [List.pairwise_cons, List.pairwise_cons] at apart
      obtain ⟨fromTable, fromNext, later⟩ := apart
      have merged (key : κ) : (putAll (fun _ value => value) table next).lookup key
          = (next.lookup key).or (table.lookup key) := by
        rw [lookup_putAll, Option.map_id']
      have stillApart : (putAll (fun _ value => value) table next :: rest).Pairwise Apart := by
        rw [List.pairwise_cons]
        refine ⟨fun other member key => ?_, later⟩
        rw [merged, Option.or_eq_none_iff]
        rcases fromNext other member key with absent | absent
        · rcases fromTable other (List.mem_cons_of_mem next member) key with old | old
          · exact .inl ⟨absent, old⟩
          · exact .inr old
        · exact .inr absent
      rw [List.foldl_cons, inductionHypothesis _ stillApart]
      simp only [List.mem_cons, exists_eq_or_imp, merged, Option.or_eq_some_iff]
      constructor
      · rintro ((inNext | ⟨-, inTable⟩) | inRest)
        · exact .inr (.inl inNext)
        · exact .inl inTable
        · exact .inr (.inr inRest)
      · rintro (inTable | inNext | inRest)
        · have absent : next.lookup key = none := by
            rcases fromTable next (by simp) key with none_ | none_
            · rw [inTable] at none_
              cases none_
            · exact none_
          exact .inl (.inr ⟨absent, inTable⟩)
        · exact .inl (.inl inNext)
        · exact .inr inRest

/-- Tables with no key in common: a merge holds what any one of them holds. -/
theorem lookup_mergeAll {tables : List (Table κ α)} (apart : tables.Pairwise Apart) (key : κ)
    (value : α) :
    (mergeAll tables).lookup key = some value ↔
      ∃ source ∈ tables, source.lookup key = some value := by
  rw [mergeAll, lookup_foldl_putAll]
  · simp
  · rw [List.pairwise_cons]
    exact ⟨fun other _ key => .inl (AList.lookup_empty key), apart⟩

/-- Tables with no key in common may be merged in any order. -/
theorem lookup_mergeAll_perm {tables order : List (Table κ α)} (apart : tables.Pairwise Apart)
    (perm : order.Perm tables) (key : κ) :
    (mergeAll order).lookup key = (mergeAll tables).lookup key := by
  have orderApart : order.Pairwise Apart :=
    apart.perm perm.symm Apart.symm
  apply Option.ext
  intro value
  rw [lookup_mergeAll orderApart, lookup_mergeAll apart]
  constructor
  · rintro ⟨source, member, found⟩
    exact ⟨source, perm.mem_iff.mp member, found⟩
  · rintro ⟨source, member, found⟩
    exact ⟨source, perm.mem_iff.mpr member, found⟩

end Table

end Qwe
