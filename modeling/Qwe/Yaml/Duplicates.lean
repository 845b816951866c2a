import Qwe.Yaml.Repeats

/-!
# Duplicate keys as they are reported

`qwe_positions_duplicates` takes entries with equal pointers for one key, whatever
mapping they stand in, and compares pointers up to their first NUL.  It reports the
repeated keys exactly when no two keys share a pointer without being repeats of each
other, and no item of a sequence shares the pointer of a repeated key.  In the last
case the comparison is not consistent and `qsort` promises no order.
-/

set_option autoImplicit false

namespace Qwe.Yaml

open Qwe.Search Qwe.Lua
open Qwe.Redact (Bytes)
open Qwe.Template (bytes)

/-- The entries have one pointer, as C strings. -/
def Same (x y : Entry) : Prop := strcmp x.pointer y.pointer = .eq

instance (x y : Entry) : Decidable (Same x y) := inferInstanceAs (Decidable (_ = _))

theorem Same.refl (x : Entry) : Same x x := strcmp_eq_iff.mpr rfl

theorem Same.symm {x y : Entry} (same : Same x y) : Same y x := Std.OrientedCmp.eq_symm same

theorem Same.trans {x y z : Entry} (first : Same x y) (second : Same y z) : Same x z :=
  Std.TransCmp.eq_trans first second

/-! ## The reports of an ordered table -/

theorem mem_reportOf {x y : Entry} {r : Report} :
    r ∈ reportOf x y ↔ x.key = some r.first ∧ y.key = some r.second ∧ r.pointer = y.pointer := by
  obtain ⟨pointer, first, second⟩ := r
  unfold reportOf
  cases x.key with
  | none => simp
  | some a =>
      cases y.key with
      | none => simp
      | some b =>
          simp only [List.mem_singleton, Report.mk.injEq, Option.some.injEq]
          constructor
          · rintro ⟨rfl, rfl, rfl⟩
            exact ⟨rfl, rfl, rfl⟩
          · rintro ⟨rfl, rfl, rfl⟩
            exact ⟨rfl, rfl, rfl⟩

section Loop
variable {first e : Entry} {rest : List Entry}

theorem duplicatesFrom_same (same : Same e first) :
    duplicatesFrom first (e :: rest) = reportOf first e ++ duplicatesFrom first rest := by
  rw [duplicatesFrom]
  exact if_neg (not_not.mpr same)

theorem duplicatesFrom_other (other : ¬ Same e first) :
    duplicatesFrom first (e :: rest) = duplicatesFrom e rest := by
  rw [duplicatesFrom]
  exact if_pos other

theorem find_own (first : Entry) (rest : List Entry) {y : Entry} (same : Same first y) :
    (first :: rest).find? (fun z => decide (Same z y)) = some first :=
  List.find?_cons_of_pos (by simpa using same)

theorem find_later (rest : List Entry) {y : Entry} (other : ¬ Same first y) :
    (first :: rest).find? (fun z => decide (Same z y))
      = rest.find? fun z => decide (Same z y) :=
  List.find?_cons_of_neg (by simpa using other)

/-- An entry of the pointer of `first` is never the first of its pointer. -/
theorem find_skip (same : Same e first) (y : Entry) :
    (first :: e :: rest).find? (fun z => decide (Same z y))
      = (first :: rest).find? fun z => decide (Same z y) := by
  by_cases hit : Same first y
  · rw [find_own first _ hit, find_own first _ hit]
  · have miss : ¬ Same e y := fun also => hit (same.symm.trans also)
    rw [find_later _ hit, find_later _ hit, find_later _ miss]

/-- Behind an entry of another pointer no entry has the pointer of `first` again. -/
theorem apart_of_ordered
    (ordered : (first :: e :: rest).Pairwise fun a b => strcmp a.pointer b.pointer ≠ .gt)
    (other : ¬ Same e first) : ∀ y ∈ e :: rest, ¬ Same first y := by
  intro y inside hit
  obtain ⟨above, orderedRest⟩ := List.pairwise_cons.mp ordered
  have high : strcmp e.pointer y.pointer ≠ .gt := by
    rcases List.mem_cons.mp inside with rfl | later
    · have own : strcmp y.pointer y.pointer = .eq := Same.refl y
      rw [own]
      decide
    · exact (List.pairwise_cons.mp orderedRest).1 y later
  cases between : strcmp first.pointer e.pointer with
  | gt => exact above e (by simp) between
  | eq => exact other (Std.OrientedCmp.eq_symm between)
  | lt =>
      have less := Std.TransCmp.lt_of_lt_of_isLE between (ne_gt_iff_isLE.mp high)
      rw [Same] at hit
      rw [hit] at less
      cases less

end Loop

/-- In a table in ascending order of pointers every entry is reported against the
first one of its pointer. -/
theorem mem_duplicatesFrom {first : Entry} {rest : List Entry} {r : Report}
    (ordered : (first :: rest).Pairwise fun a b => strcmp a.pointer b.pointer ≠ .gt)
    (distinct : (first :: rest).Pairwise fun a b => a.key ≠ none → a ≠ b) :
    r ∈ duplicatesFrom first rest ↔ ∃ y ∈ first :: rest, ∃ x,
      (first :: rest).find? (fun z => decide (Same z y)) = some x ∧ x ≠ y ∧ r ∈ reportOf x y := by
  induction rest generalizing first with
  | nil =>
      simp only [duplicatesFrom, List.not_mem_nil, List.mem_singleton, exists_eq_left, false_iff]
      rintro ⟨x, found, differ, -⟩
      rw [find_own first [] (Same.refl first)] at found
      exact differ (Option.some.inj found).symm
  | cons e rest inductionHypothesis =>
      obtain ⟨others, distinctRest⟩ := List.pairwise_cons.mp distinct
      obtain ⟨above, orderedRest⟩ := List.pairwise_cons.mp ordered
      by_cases same : Same e first
      · have skips : (first :: rest).Sublist (first :: e :: rest) :=
          (List.sublist_cons_self e rest).cons_cons first
        rw [duplicatesFrom_same same, List.mem_append,
          inductionHypothesis (ordered.sublist skips) (distinct.sublist skips)]
        constructor
        · rintro (report | ⟨y, inside, x, found, differ, report⟩)
          · refine ⟨e, by simp, first, find_own first _ same.symm, ?_, report⟩
            apply others e (by simp)
            rw [(mem_reportOf.mp report).1]
            exact Option.some_ne_none _
          · exact ⟨y, skips.subset inside, x, (find_skip same y).trans found, differ, report⟩
        · rintro ⟨y, inside, x, found, differ, report⟩
          rw [find_skip same] at found
          rcases List.mem_cons.mp inside with rfl | later
          · exact .inr ⟨y, by simp, x, found, differ, report⟩
          · rcases List.mem_cons.mp later with rfl | later
            · rw [find_own first rest same.symm] at found
              cases found
              exact .inl report
            · exact .inr ⟨y, List.mem_cons_of_mem _ later, x, found, differ, report⟩
      · have apart := apart_of_ordered ordered same
        rw [duplicatesFrom_other same, inductionHypothesis orderedRest distinctRest]
        constructor
        · rintro ⟨y, inside, x, found, differ, report⟩
          exact ⟨y, List.mem_cons_of_mem _ inside, x,
            (find_later _ (apart y inside)).trans found, differ, report⟩
        · rintro ⟨y, inside, x, found, differ, report⟩
          rcases List.mem_cons.mp inside with rfl | later
          · rw [find_own y _ (Same.refl y)] at found
            exact absurd (Option.some.inj found).symm differ
          · rw [find_later _ (apart y later)] at found
            exact ⟨y, later, x, found, differ, report⟩

theorem mem_positionsDuplicates {sorted : List Entry} {r : Report}
    (ordered : sorted.Pairwise fun a b => strcmp a.pointer b.pointer ≠ .gt)
    (distinct : sorted.Pairwise fun a b => a.key ≠ none → a ≠ b) :
    r ∈ positionsDuplicates sorted ↔ ∃ y ∈ sorted, ∃ x,
      sorted.find? (fun z => decide (Same z y)) = some x ∧ x ≠ y ∧ r ∈ reportOf x y := by
  cases sorted with
  | nil => simp [positionsDuplicates]
  | cons first rest => exact mem_duplicatesFrom ordered distinct

/-- A report is made once for each entry behind the first. -/
theorem second_sublist (first : Entry) (rest : List Entry) :
    ((duplicatesFrom first rest).map Report.second).Sublist (rest.filterMap Entry.key) := by
  induction rest generalizing first with
  | nil => exact List.Sublist.refl _
  | cons e rest inductionHypothesis =>
      rw [duplicatesFrom]
      split_ifs with other
      · exact (inductionHypothesis e).trans ((List.sublist_cons_self e rest).filterMap _)
      · rw [List.map_append, List.filterMap_cons]
        unfold reportOf
        cases first.key with
        | none =>
            cases e.key with
            | none => exact inductionHypothesis first
            | some b => exact (inductionHypothesis first).cons b
        | some a =>
            cases e.key with
            | none => exact inductionHypothesis first
            | some b => exact (inductionHypothesis first).cons_cons b

theorem second_positionsDuplicates_sublist (sorted : List Entry) :
    ((positionsDuplicates sorted).map Report.second).Sublist (sorted.filterMap Entry.key) := by
  cases sorted with
  | nil => exact List.Sublist.refl _
  | cons first rest =>
      exact (second_sublist first rest).trans ((List.sublist_cons_self first rest).filterMap _)

/-! ## Keys and their entries -/

mutual

theorem at_of_mappings {root node : Node} {refs : List Ref} {key : Option Mark}
    (here : At root refs key node) {entries : List (Key × Node)} (member : entries ∈ node.mappings) :
    ∃ refs key mark close, At root refs key (.mapping mark close entries) := by
  match node with
  | .scalar .. => cases member
  | .sequence mark close items =>
      exact at_of_itemsMappings here 0 (fun i node at_i => by simpa using at_i) member
  | .mapping mark close own =>
      rw [Node.mappings, List.mem_cons] at member
      rcases member with rfl | inner
      · exact ⟨refs, key, mark, close, here⟩
      · exact at_of_entriesMappings here (fun entry present => present) inner

theorem at_of_itemsMappings {root : Node} {refs : List Ref} {key : Option Mark} {mark close : Mark}
    {items rest : List Node} (here : At root refs key (.sequence mark close items)) (i : Nat)
    (suffix : ∀ j node, rest[j]? = some node → items[i + j]? = some node)
    {entries : List (Key × Node)} (member : entries ∈ itemsMappings rest) :
    ∃ refs key mark close, At root refs key (.mapping mark close entries) := by
  match rest with
  | [] => cases member
  | node :: later =>
      rw [itemsMappings, List.mem_append] at member
      rcases member with inner | behind
      · exact at_of_mappings (.item here (suffix 0 node rfl)) inner
      · refine at_of_itemsMappings here (i + 1) (fun j other at_j => ?_) behind
        rw [Nat.add_assoc, Nat.add_comm 1]
        exact suffix (j + 1) other at_j

theorem at_of_entriesMappings {root : Node} {refs : List Ref} {key : Option Mark}
    {mark close : Mark} {all rest : List (Key × Node)}
    (here : At root refs key (.mapping mark close all)) (among : ∀ entry ∈ rest, entry ∈ all)
    {entries : List (Key × Node)} (member : entries ∈ entriesMappings rest) :
    ∃ refs key mark close, At root refs key (.mapping mark close entries) := by
  match rest with
  | [] => cases member
  | (own, node) :: later =>
      rw [entriesMappings, List.mem_append] at member
      have place : At root (refs ++ [.key own.value]) (some own.mark) node :=
        .entry here (among _ (by simp))
      rcases member with inner | behind
      · exact at_of_mappings place inner
      · exact at_of_entriesMappings here (fun entry present => among entry (by simp [present])) behind

end

/-- Every key of a mapping has an entry, and equal keys have one pointer. -/
theorem entries_of_mapping {root : Node} {entries : List (Key × Node)}
    (member : entries ∈ root.mappings) :
    ∃ pointer : Bytes → Bytes, ∀ k ∈ entries.map Prod.fst,
      ∃ e ∈ root.table, e.key = some (toPos k.mark) ∧ e.pointer = pointer k.value := by
  obtain ⟨refs, key, mark, close, here⟩ := at_of_mappings .root member
  refine ⟨fun text => pointerOf (refs ++ [.key text]), fun k present => ?_⟩
  obtain ⟨⟨own, node⟩, inside, rfl⟩ := List.mem_map.mp present
  exact ⟨_, (placeEntry_mem (.entry here inside)).1, rfl, rfl⟩

/-- The key of an entry is a key of a mapping. -/
theorem siblings_self {root : Node} {e : Entry} (member : e ∈ root.table) {a : Mark}
    (keyed : e.key = some a) : Siblings root a a := by
  obtain ⟨refs, key, node, here, rfl⟩ := mem_table_iff.mp member
  cases here with
  | root => cases keyed
  | item parent inside => cases keyed
  | @entry refs key mark close entries own node parent inside =>
      cases keyed
      have present : own ∈ entries.map Prod.fst := List.mem_map.mpr ⟨_, inside, rfl⟩
      exact ⟨entries, mem_mappings parent, own, present, own, present, rfl, rfl, rfl⟩

mutual

theorem keys_inside (node : Node) (pointer : Bytes) :
    (node.inside pointer).filterMap Entry.key = node.keyNodes.map fun key => toPos key.mark := by
  match node with
  | .scalar .. => rfl
  | .sequence _ _ items => exact keys_itemsInside items pointer 0
  | .mapping _ _ entries => exact keys_entriesInside entries pointer

theorem keys_itemsInside (items : List Node) (pointer : Bytes) (i : Nat) :
    (itemsInside pointer i items).filterMap Entry.key
      = (itemsKeyNodes items).map fun key => toPos key.mark := by
  match items with
  | [] => rfl
  | node :: rest =>
      rw [itemsInside, itemsKeyNodes, List.filterMap_cons_none rfl, List.filterMap_append,
        keys_inside node, keys_itemsInside rest, List.map_append]

theorem keys_entriesInside (entries : List (Key × Node)) (pointer : Bytes) :
    (entriesInside pointer entries).filterMap Entry.key
      = (entriesKeyNodes entries).map fun key => toPos key.mark := by
  match entries with
  | [] => rfl
  | (key, node) :: rest =>
      rw [entriesInside, entriesKeyNodes, List.filterMap_cons, List.map_cons, List.map_append,
        List.filterMap_append, keys_inside node, keys_entriesInside rest]

end

section Table
variable {root : Node} (increasing : root.Increasing)

include increasing

theorem table_keys_nodup : (root.table.filterMap Entry.key).Nodup := by
  rw [Node.table, List.filterMap_cons_none rfl, keys_inside]
  exact positions_nodup increasing

theorem entry_of_key {x y : Entry} (inX : x ∈ root.table) (inY : y ∈ root.table) {a : Mark}
    (keyX : x.key = some a) (keyY : y.key = some a) : x = y := by
  by_contra differ
  have apart := List.pairwise_filterMap.mp (table_keys_nodup increasing)
  have symmetric : Std.Symm fun x y : Entry =>
      ∀ a, x.key = some a → ∀ b, y.key = some b → a ≠ b :=
    ⟨fun x y apart b keyB a keyA same => apart a keyA b keyB same.symm⟩
  exact apart.forall inX inY differ a keyX a keyY rfl

theorem distinct_of_perm {sorted : List Entry} (perm : sorted.Perm root.table) :
    sorted.Pairwise fun a b => a.key ≠ none → a ≠ b := by
  have nodup : (sorted.filterMap Entry.key).Nodup :=
    (perm.filterMap _).nodup_iff.mpr (table_keys_nodup increasing)
  refine (List.pairwise_filterMap.mp nodup).imp fun {a b} apart keyed same => ?_
  obtain ⟨mark, own⟩ := Option.ne_none_iff_exists'.mp keyed
  subst same
  exact apart mark own mark own rfl

theorem reports_nodup {sorted : List Entry} (perm : sorted.Perm root.table) :
    ((positionsDuplicates sorted).map fun r => (r.first, r.second)).Nodup := by
  have nodup : ((positionsDuplicates sorted).map Report.second).Nodup :=
    (second_positionsDuplicates_sublist sorted).nodup
      ((perm.filterMap _).nodup_iff.mpr (table_keys_nodup increasing))
  apply List.Nodup.of_map Prod.snd
  rw [List.map_map]
  exact nodup

end Table

/-! ## Tables in which equal pointers are repeats -/

/-- Keys that share a pointer are repeats of each other, and no item of a sequence
shares the pointer of two keys. -/
def Node.Unmixed (root : Node) : Prop :=
  (∀ x ∈ root.table, ∀ y ∈ root.table, Same x y →
    ∀ a ∈ x.key, ∀ b ∈ y.key, Siblings root a b) ∧
  ∀ x ∈ root.table, x.key = none → ∀ y ∈ root.table, ∀ z ∈ root.table, Same x y → Same x z →
    ∀ a ∈ y.key, ∀ b ∈ z.key, a = b

instance (root : Node) (a b : Mark) : Decidable (Siblings root a b) := by
  unfold Siblings
  infer_instance

instance (root : Node) : Decidable root.Unmixed := by
  unfold Node.Unmixed
  infer_instance

theorem Entry.cmp_of_same {x y : Entry} (same : Same x y) {a b : Mark} (keyX : x.key = some a)
    (keyY : y.key = some b) : x.cmp y = a.cmp b := by
  rw [Same] at same
  rw [Entry.cmp, same, keyX, keyY]

theorem Entry.cmp_of_keyless {x y : Entry} (same : Same x y) (keyless : x.key = none ∨ y.key = none) :
    x.cmp y = .eq := by
  rw [Same] at same
  rw [Entry.cmp, same]
  rcases keyless with noKey | noKey
  · rw [noKey]
  · rw [noKey]
    cases x.key <;> rfl

theorem Entry.cmp_self (x : Entry) : x.cmp x ≠ .gt := by
  cases own : x.key with
  | none =>
      rw [Entry.cmp_of_keyless (Same.refl x) (.inl own)]
      decide
  | some a =>
      rw [Entry.cmp_of_same (Same.refl x) own own, Mark.cmp_eq_iff.mpr rfl]
      decide

theorem consistent_of_unmixed {root : Node} (unmixed : root.Unmixed) :
    Consistent Entry.cmp root.table := by
  intro a inA b inB c inC ab bc
  cases first : strcmp a.pointer b.pointer with
  | gt => exact absurd first (strcmp_ne_gt ab)
  | lt =>
      have below := Std.TransCmp.lt_of_lt_of_isLE first (ne_gt_iff_isLE.mp (strcmp_ne_gt bc))
      rw [Entry.cmp, below]
      intro above
      cases above
  | eq =>
      cases second : strcmp b.pointer c.pointer with
      | gt => exact absurd second (strcmp_ne_gt bc)
      | lt =>
          have below : strcmp a.pointer c.pointer = .lt :=
            Std.TransCmp.lt_of_eq_of_lt first second
          rw [Entry.cmp, below]
          intro above
          cases above
      | eq =>
          have same : Same a c := Same.trans first second
          cases keyA : a.key with
          | none =>
              rw [Entry.cmp_of_keyless same (.inl keyA)]
              decide
          | some i =>
              cases keyC : c.key with
              | none =>
                  rw [Entry.cmp_of_keyless same (.inr keyC)]
                  decide
              | some k =>
                  rw [Entry.cmp_of_same same keyA keyC]
                  cases keyB : b.key with
                  | none =>
                      rw [unmixed.2 b inB keyB a inA c inC (Same.symm first) second i keyA k keyC,
                        Mark.cmp_eq_iff.mpr rfl]
                      decide
                  | some j =>
                      rw [Entry.cmp_of_same first keyA keyB] at ab
                      rw [Entry.cmp_of_same second keyB keyC] at bc
                      rw [ne_gt_iff_isLE] at ab bc ⊢
                      exact Std.TransCmp.isLE_trans ab bc

/-- The first entry of a pointer. -/
theorem exists_head {sorted : List Entry} {y : Entry} (member : y ∈ sorted) :
    ∃ x, sorted.find? (fun z => decide (Same z y)) = some x ∧ x ∈ sorted ∧ Same x y := by
  have some_ : (sorted.find? fun z => decide (Same z y)).isSome := by
    rw [List.find?_isSome]
    exact ⟨y, member, by simpa using Same.refl y⟩
  obtain ⟨x, found⟩ := Option.isSome_iff_exists.mp some_
  exact ⟨x, found, List.mem_of_find?_eq_some found, by simpa using List.find?_some found⟩

/-- Every key of a mapping has its entry. -/
theorem entry_of_sibling {root : Node} {a b : Mark} (siblings : Siblings root a b) :
    ∃ e ∈ root.table, e.key = some b := by
  obtain ⟨entries, member, k, inK, l, inL, text, rfl, rfl⟩ := siblings
  obtain ⟨pointer, known⟩ := entries_of_mapping member
  obtain ⟨e, inE, keyE, -⟩ := known l inL
  exact ⟨e, inE, keyE⟩

section Exact
variable {root : Node} (increasing : root.Increasing)

include increasing

/-- The pairs that are reported, for any order of the table by pointers. -/
theorem mem_pairs {sorted : List Entry} (perm : sorted.Perm root.table)
    (ordered : sorted.Pairwise fun a b => strcmp a.pointer b.pointer ≠ .gt) {f s : Mark} :
    (f, s) ∈ (positionsDuplicates sorted).map (fun r => (r.first, r.second)) ↔
      ∃ y ∈ root.table, ∃ x ∈ root.table,
        sorted.find? (fun z => decide (Same z y)) = some x ∧ x ≠ y ∧
          x.key = some f ∧ y.key = some s := by
  have distinct := distinct_of_perm increasing perm
  rw [List.mem_map]
  constructor
  · rintro ⟨r, inside, equal⟩
    cases equal
    obtain ⟨y, inY, x, found, differ, report⟩ := (mem_positionsDuplicates ordered distinct).mp inside
    obtain ⟨keyX, keyY, -⟩ := mem_reportOf.mp report
    exact ⟨y, perm.mem_iff.mp inY, x, perm.mem_iff.mp (List.mem_of_find?_eq_some found), found,
      differ, keyX, keyY⟩
  · rintro ⟨y, inY, x, -, found, differ, keyX, keyY⟩
    refine ⟨⟨y.pointer, f, s⟩, (mem_positionsDuplicates ordered distinct).mpr ?_, rfl⟩
    exact ⟨y, perm.mem_iff.mpr inY, x, found, differ, mem_reportOf.mpr ⟨keyX, keyY, rfl⟩⟩

/-- The entries of two keys of one mapping that have one text. -/
theorem same_of_siblings {x y : Entry} (inX : x ∈ root.table) (inY : y ∈ root.table) {a b : Mark}
    (keyX : x.key = some a) (keyY : y.key = some b) (siblings : Siblings root a b) : Same x y := by
  obtain ⟨entries, member, k, inK, l, inL, text, rfl, rfl⟩ := siblings
  obtain ⟨pointer, known⟩ := entries_of_mapping member
  obtain ⟨e, inE, keyE, pointerE⟩ := known k inK
  obtain ⟨e', inE', keyE', pointerE'⟩ := known l inL
  have first : x = e := entry_of_key increasing inX inE keyX keyE
  have second : y = e' := entry_of_key increasing inY inE' keyY keyE'
  subst first second
  rw [Same, pointerE, pointerE', text]
  exact strcmp_eq_iff.mpr rfl

/-- A repeat, in terms of positions. -/
theorem mem_repeats_iff_siblings {a b : Mark} :
    (a, b) ∈ root.repeats ↔ Siblings root a b ∧ a.cmp b = .lt ∧
      ∀ c, Siblings root c b → a.cmp c ≠ .gt := by
  constructor
  · intro repeated
    have siblings := siblings_of_repeats increasing repeated
    obtain ⟨entries, member, first, inFirst, key, inKey, text, less, lowest, rfl, rfl⟩ :=
      (mem_repeats_iff increasing).mp repeated
    refine ⟨siblings, by rw [cmp_toPos]; exact less, ?_⟩
    rintro c ⟨entries', member', k, inK, l, inL, text', rfl, atB⟩
    have same : l = key := key_unique increasing (mem_keyNodes member' inL)
      (mem_keyNodes member inKey) atB
    subst same
    have mapping : entries' = entries := mapping_unique increasing member' member inL inKey
    subst mapping
    rw [cmp_toPos]
    exact lowest k inK text'
  · rintro ⟨⟨entries, member, k, inK, l, inL, text, rfl, rfl⟩, less, lowest⟩
    refine (mem_repeats_iff increasing).mpr ⟨entries, member, k, inK, l, inL, text, ?_, ?_, rfl, rfl⟩
    · rw [← cmp_toPos]
      exact less
    · intro other inOther same
      rw [← cmp_toPos]
      exact lowest _ ⟨entries, member, other, inOther, l, inL, same, rfl, rfl⟩

/-- Where equal pointers are repeats, the reports are the repeats. -/
theorem mem_pairs_iff_repeats (unmixed : root.Unmixed) {sorted : List Entry}
    (finished : Finished root.table sorted) {f s : Mark} :
    (f, s) ∈ (positionsDuplicates sorted).map (fun r => (r.first, r.second)) ↔
      (f, s) ∈ root.repeats := by
  obtain ⟨perm, ascending⟩ := finished
  have ordered := ascending (consistent_of_unmixed unmixed)
  rw [mem_pairs increasing perm (ordered.imp strcmp_ne_gt), mem_repeats_iff_siblings increasing]
  have lowest {x y z : Entry} (found : sorted.find? (fun z => decide (Same z y)) = some x)
      (inZ : z ∈ root.table) (same : Same z y) : x.cmp z ≠ .gt :=
    first_of_find Entry.cmp_self ordered found z (perm.mem_iff.mpr inZ) (by simpa using same)
  constructor
  · rintro ⟨y, inY, x, inX, found, differ, keyX, keyY⟩
    have same : Same x y := by simpa using List.find?_some found
    refine ⟨unmixed.1 x inX y inY same f keyX s keyY, ?_, ?_⟩
    · have below := lowest found inY (Same.refl y)
      rw [Entry.cmp_of_same same keyX keyY] at below
      cases order : f.cmp s with
      | lt => rfl
      | gt => exact absurd order below
      | eq =>
          rw [Mark.cmp_eq_iff] at order
          subst order
          exact absurd (entry_of_key increasing inX inY keyX keyY) differ
    · intro c siblings
      obtain ⟨z, inZ, keyZ⟩ := entry_of_sibling siblings.symm
      have sameZ : Same z y := same_of_siblings increasing inZ inY keyZ keyY siblings
      have below := lowest found inZ sameZ
      rw [Entry.cmp_of_same (same.trans sameZ.symm) keyX keyZ] at below
      exact below
  · rintro ⟨siblings, less, least⟩
    obtain ⟨y, inY, keyY⟩ := entry_of_sibling siblings
    obtain ⟨e, inE, keyE⟩ := entry_of_sibling siblings.symm
    have sameE : Same e y := same_of_siblings increasing inE inY keyE keyY siblings
    obtain ⟨x, found, inSorted, same⟩ := exists_head (perm.mem_iff.mpr inY)
    have inX := perm.mem_iff.mp inSorted
    have differ (a b : Mark) (ab : a.cmp b = .lt) : a ≠ b := by
      intro equal
      rw [Mark.cmp_eq_iff.mpr equal] at ab
      cases ab
    cases keyX : x.key with
    | none =>
        exact absurd (unmixed.2 x inX keyX e inE y inY (same.trans sameE.symm) same f keyE s keyY)
          (differ f s less)
    | some g =>
        -- the head of the pointer is not above the first key, nor the first key above it
        have above := least g (unmixed.1 x inX y inY same g keyX s keyY)
        have below := lowest found inE sameE
        rw [Entry.cmp_of_same (same.trans sameE.symm) keyX keyE] at below
        have equal : g = f := by
          rw [← Mark.cmp_eq_iff]
          exact Std.OrientedCmp.isLE_antisymm (ne_gt_iff_isLE.mp below) (ne_gt_iff_isLE.mp above)
        subst equal
        refine ⟨y, inY, x, inX, found, ?_, keyX, keyY⟩
        rintro rfl
        rw [keyX] at keyY
        exact differ g s less (Option.some.inj keyY)

end Exact

/-! ## Orders that a mixed table may be left in -/

/-- `keyless` is 0 or 2: entries without a key before or behind those with one. -/
def Entry.rank (keyless : Nat) (e : Entry) : Nat := if e.key.isSome then 1 else keyless

/-- An order of entries that refines `cmp`. -/
def Entry.full (keyless : Nat) : Entry → Entry → Ordering :=
  compareLex (compareOn fun e => cString e.pointer) <|
    compareLex (compareOn (Entry.rank keyless)) <|
      compareLex (compareOn fun e => (e.key.getD ⟨0, 0⟩).line)
        (compareOn fun e => (e.key.getD ⟨0, 0⟩).column)

instance (keyless : Nat) : Std.TransCmp (Entry.full keyless) :=
  inferInstanceAs (Std.TransCmp (compareLex _ (compareLex _ (compareLex _ _))))

def arranged (keyless : Nat) (table : List Entry) : List Entry :=
  table.mergeSort fun x y => (Entry.full keyless x y).isLE

section Arranged
variable (keyless : Nat)

theorem pairwise_arranged (table : List Entry) :
    (arranged keyless table).Pairwise fun x y => (Entry.full keyless x y).isLE := by
  apply List.pairwise_mergeSort
  · intro a b c ab bc
    exact Std.TransCmp.isLE_trans ab bc
  · intro a b
    have swapped : Entry.full keyless b a = (Entry.full keyless a b).swap :=
      Std.OrientedCmp.eq_swap
    rw [swapped]
    cases Entry.full keyless a b <;> rfl

variable {keyless}

theorem rank_le {x y : Entry} (same : Same x y) (below : (Entry.full keyless x y).isLE) :
    x.rank keyless ≤ y.rank keyless := by
  have equal : compare (cString x.pointer) (cString y.pointer) = .eq := same
  simp only [Entry.full, compareLex, compareOn, equal, Ordering.eq_then] at below
  cases order : compare (x.rank keyless) (y.rank keyless) with
  | lt => exact (Nat.compare_eq_lt.mp order).le
  | eq => exact (Nat.compare_eq_eq.mp order).le
  | gt =>
      rw [order] at below
      cases below

theorem cmp_of_full {x y : Entry} (below : (Entry.full keyless x y).isLE) : x.cmp y ≠ .gt := by
  unfold Entry.cmp strcmp
  simp only [Entry.full, compareLex, compareOn] at below
  cases pointers : compare (cString x.pointer) (cString y.pointer) with
  | lt => exact nofun
  | gt =>
      rw [pointers] at below
      cases below
  | eq =>
      simp only [pointers, Ordering.eq_then] at below
      cases keyX : x.key with
      | none => exact nofun
      | some a =>
          cases keyY : y.key with
          | none => exact nofun
          | some b =>
              simp only [Entry.rank, keyX, keyY, Option.isSome_some, if_true, Option.getD_some,
                Std.compare_self, Ordering.eq_then] at below
              exact ne_gt_iff_isLE.mpr below

theorem finished_arranged (table : List Entry) : Finished table (arranged keyless table) :=
  ⟨List.mergeSort_perm _ _, fun _ => (pairwise_arranged keyless table).imp cmp_of_full⟩

theorem head_rank {table : List Entry} {x y z : Entry}
    (found : (arranged keyless table).find? (fun z => decide (Same z y)) = some x)
    (inZ : z ∈ table) (same : Same z y) : x.rank keyless ≤ z.rank keyless := by
  have reflexive (e : Entry) : (Entry.full keyless e e).isLE := by
    have own : Entry.full keyless e e = .eq := Std.ReflCmp.compare_self
    rw [own]
    rfl
  have below := first_of_find reflexive (pairwise_arranged keyless table) found z
    ((List.mergeSort_perm _ _).mem_iff.mpr inZ) (by simpa using same)
  have own : Same x y := by simpa using List.find?_some found
  exact rank_le (own.trans same.symm) below

end Arranged

theorem unmixed_of_exact {root : Node} (increasing : root.Increasing)
    (exact_ : ∀ sorted, Finished root.table sorted →
      ((positionsDuplicates sorted).map fun r => (r.first, r.second)).Perm root.repeats) :
    root.Unmixed := by
  have pairs (keyless : Nat) {f s : Mark} :
      (f, s) ∈ root.repeats ↔ ∃ y ∈ root.table, ∃ x ∈ root.table,
        (arranged keyless root.table).find? (fun z => decide (Same z y)) = some x ∧ x ≠ y ∧
          x.key = some f ∧ y.key = some s := by
    have ordered := (pairwise_arranged keyless root.table).imp fun {x y} below =>
      strcmp_ne_gt (cmp_of_full below)
    rw [← (exact_ _ (finished_arranged root.table)).mem_iff]
    exact mem_pairs increasing (List.mergeSort_perm _ _) ordered
  have siblings : ∀ x ∈ root.table, ∀ y ∈ root.table, Same x y →
      ∀ a ∈ x.key, ∀ b ∈ y.key, Siblings root a b := by
    intro x inX y inY same a keyX b keyY
    have inArranged : x ∈ arranged 2 root.table := (List.mergeSort_perm _ _).mem_iff.mpr inX
    obtain ⟨head, found, inSorted, sameHead⟩ := exists_head inArranged
    have inHead : head ∈ root.table := (List.mergeSort_perm _ _).mem_iff.mp inSorted
    have low := head_rank found inX (Same.refl x)
    cases keyHead : head.key with
    | none => simp [Entry.rank, Option.mem_def.mp keyX, keyHead] at low
    | some c =>
        -- every other entry of the pointer is reported against the head
        have reported {z : Entry} (inZ : z ∈ root.table) {d : Mark} (keyZ : z.key = some d)
            (sameZ : Same z x) : Siblings root c d := by
          by_cases own : head = z
          · subst own
            rw [keyHead] at keyZ
            cases keyZ
            exact siblings_self inHead keyHead
          · apply siblings_of_repeats increasing
            refine (pairs 2).mpr ⟨z, inZ, head, inHead, ?_, own, keyHead, keyZ⟩
            have classes (e : Entry) : decide (Same e z) = decide (Same e x) :=
              decide_eq_decide.mpr ⟨fun other => other.trans sameZ,
                fun other => other.trans sameZ.symm⟩
            simp only [classes]
            exact found
        exact (reported inX keyX (Same.refl x)).symm.trans increasing
          (reported inY keyY same.symm)
  refine ⟨siblings, ?_⟩
  have unreported {x y z : Entry} (inX : x ∈ root.table) (keyX : x.key = none)
      (inY : y ∈ root.table) (inZ : z ∈ root.table) (sameY : Same x y) (sameZ : Same x z)
      {a b : Mark} (keyY : y.key = some a) (keyZ : z.key = some b) : a.cmp b ≠ .lt := by
    intro less
    have both := siblings y inY z inZ (sameY.symm.trans sameZ) a keyY b keyZ
    obtain ⟨f, repeated⟩ := exists_repeat increasing both less
    obtain ⟨z', inZ', head, inHead, found, -, keyHead, keyZ'⟩ := (pairs 0).mp repeated
    have own : z' = z := entry_of_key increasing inZ' inZ keyZ' keyZ
    subst own
    have low := head_rank found inX sameZ
    simp [Entry.rank, keyX, keyHead] at low
  intro x inX keyX y inY z inZ sameY sameZ a keyY b keyZ
  cases order : a.cmp b with
  | eq => exact Mark.cmp_eq_iff.mp order
  | lt => exact absurd order (unreported inX keyX inY inZ sameY sameZ keyY keyZ)
  | gt =>
      rw [Std.OrientedCmp.gt_iff_lt] at order
      exact absurd order (unreported inX keyX inZ inY sameZ sameY keyZ keyY)

/-- The callback is called once for each key that repeats an earlier one of its
mapping, with the positions of both, and for nothing else: exactly where keys that
share a pointer are such repeats, and no item of a sequence shares the pointer of
two keys. -/
theorem duplicates_exact_iff (strtod : Bytes → Number) (root : Node) (stream opens closes : Mark)
    (c : Ctx) (ran : handleEvents strtod .initial (root.document stream opens closes) = .ok c)
    (increasing : root.Increasing) :
    (∀ sorted, Finished c.positions sorted →
      ((positionsDuplicates sorted).map fun r => (r.first, r.second)).Perm root.repeats) ↔
    root.Unmixed := by
  rw [positions_of_document ran]
  constructor
  · exact unmixed_of_exact increasing
  · intro unmixed sorted finished
    apply (List.perm_ext_iff_of_nodup (reports_nodup increasing finished.1)
      (repeats_nodup increasing)).mpr
    rintro ⟨f, s⟩
    exact mem_pairs_iff_repeats increasing unmixed finished

/-- `a: 1`, `b: 2` and `a: 3`. -/
def twiceDoc : Node :=
  .mapping ⟨0, 0⟩ ⟨3, 0⟩
    [(⟨⟨0, 0⟩, bytes "a", false⟩, .scalar ⟨0, 3⟩ (bytes "1") true false),
     (⟨⟨1, 0⟩, bytes "b", false⟩, .scalar ⟨1, 3⟩ (bytes "2") true false),
     (⟨⟨2, 0⟩, bytes "a", false⟩, .scalar ⟨2, 3⟩ (bytes "3") true false)]

theorem duplicates_exact_twiceDoc :
    twiceDoc.Unmixed ∧ ∀ sorted, Finished twiceDoc.table sorted →
      ((positionsDuplicates sorted).map fun r => (r.first, r.second)).Perm
        [(⟨1, 1⟩, ⟨3, 1⟩)] := by
  have unmixed : twiceDoc.Unmixed := by decide
  exact ⟨unmixed, (duplicates_exact_iff (fun _ => .finite 0) twiceDoc ⟨0, 0⟩ ⟨0, 0⟩ ⟨3, 0⟩ _ rfl
    (by decide)).mpr unmixed⟩

/-- `a: {x: 1}` and `a: {x: 2}`: no mapping has the key `x` twice. -/
def nestedDoc : Node :=
  .mapping ⟨0, 0⟩ ⟨2, 0⟩
    [(⟨⟨0, 0⟩, bytes "a", false⟩, .mapping ⟨0, 3⟩ ⟨0, 8⟩
        [(⟨⟨0, 4⟩, bytes "x", false⟩, .scalar ⟨0, 7⟩ (bytes "1") true false)]),
     (⟨⟨1, 0⟩, bytes "a", false⟩, .mapping ⟨1, 3⟩ ⟨1, 8⟩
        [(⟨⟨1, 4⟩, bytes "x", false⟩, .scalar ⟨1, 7⟩ (bytes "2") true false)])]

/-- The order that the comparison gives its table. -/
def nestedTable : List Entry :=
  [⟨[], none, some ⟨1, 1⟩⟩, ⟨bytes "/a", some ⟨1, 1⟩, some ⟨1, 4⟩⟩,
   ⟨bytes "/a", some ⟨2, 1⟩, some ⟨2, 4⟩⟩, ⟨bytes "/a/x", some ⟨1, 5⟩, some ⟨1, 8⟩⟩,
   ⟨bytes "/a/x", some ⟨2, 5⟩, some ⟨2, 8⟩⟩]

theorem duplicates_across_mappings :
    nestedDoc.Increasing ∧ Finished nestedDoc.table nestedTable ∧
      (⟨bytes "/a/x", ⟨1, 5⟩, ⟨2, 5⟩⟩ : Report) ∈ positionsDuplicates nestedTable ∧
      nestedDoc.repeats = [(⟨1, 1⟩, ⟨2, 1⟩)] ∧
      ¬ ∀ (root : Node) (c : Ctx), handleEvents (fun _ => .finite 0) .initial
            (root.document ⟨0, 0⟩ ⟨0, 0⟩ ⟨2, 0⟩) = .ok c →
          root.Increasing → ∀ sorted, Finished c.positions sorted →
            ((positionsDuplicates sorted).map fun r => (r.first, r.second)).Perm root.repeats := by
  have finished : Finished nestedDoc.table nestedTable := ⟨by decide, fun _ => by decide⟩
  have increasing : nestedDoc.Increasing := by decide
  refine ⟨increasing, finished, by decide, by decide, fun claimed => ?_⟩
  have perm := claimed nestedDoc _ rfl increasing nestedTable finished
  exact absurd perm.length_eq (by decide)

end Qwe.Yaml
