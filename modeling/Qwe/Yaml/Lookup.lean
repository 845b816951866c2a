import Qwe.Template.Document
import Qwe.Yaml.Pointers

/-!
# Looking positions up

A place in a document is named by reference tokens: keys of mappings and indices
of sequences.  In a document without repeated keys a pointer names one place, so
the entries are in ascending order of their pointers and the binary search finds
the one that is asked for.
-/

set_option autoImplicit false

namespace Qwe.Yaml

open Qwe.Search Qwe.Lua
open Qwe.Redact (Bytes)
open Qwe.Template (bytes isDigit)

/-- A reference token of a JSON Pointer. -/
inductive Ref where
  | key (text : Bytes)
  | index (i : Nat)
deriving DecidableEq, Repr

def Ref.text : Ref → Bytes
  | .key text => escapeKey text
  | .index i => bytes (toString i)

/-- RFC 6901: every token behind a `/`. -/
def pointerOf (refs : List Ref) : Bytes := refs.flatMap fun ref => 47 :: ref.text

/-- The tokens lead from the root to the node; the entry of a mapping has a key
with a position. -/
inductive At (root : Node) : List Ref → Option Mark → Node → Prop where
  | root : At root [] none root
  | item {refs : List Ref} {key : Option Mark} {mark close : Mark} {items : List Node} {i : Nat}
      {node : Node} (parent : At root refs key (.sequence mark close items))
      (here : items[i]? = some node) : At root (refs ++ [.index i]) none node
  | entry {refs : List Ref} {key : Option Mark} {mark close : Mark} {entries : List (Key × Node)}
      {own : Key} {node : Node} (parent : At root refs key (.mapping mark close entries))
      (here : (own, node) ∈ entries) : At root (refs ++ [.key own.value]) (some own.mark) node

/-- The entry of a place in the table. -/
def placeEntry (refs : List Ref) (key : Option Mark) (node : Node) : Entry :=
  ⟨pointerOf refs, key.map toPos, some (toPos node.mark)⟩

theorem pointerOf_concat (refs : List Ref) (ref : Ref) :
    pointerOf (refs ++ [ref]) = pointerOf refs ++ 47 :: ref.text := by
  simp [pointerOf]

theorem pathPushIndex_pointerOf (refs : List Ref) (i : Nat) :
    pathPushIndex (pointerOf refs) i = pointerOf (refs ++ [.index i]) := by
  rw [pointerOf_concat, pathPushIndex, List.append_assoc]
  rfl

theorem pathPushKey_pointerOf (refs : List Ref) (key : Bytes) :
    pathPushKey (pointerOf refs) key = pointerOf (refs ++ [.key key]) := by
  rw [pointerOf_concat, pathPushKey, List.append_assoc]
  rfl

/-! ## Every place has its entry, every entry its place -/

mutual

theorem place_of_inside {root node : Node} {refs : List Ref} {key : Option Mark}
    (here : At root refs key node) {e : Entry} (member : e ∈ node.inside (pointerOf refs)) :
    ∃ refs' key' node', At root refs' key' node' ∧ e = placeEntry refs' key' node' := by
  match node with
  | .scalar .. => cases member
  | .sequence mark close items =>
      exact place_of_items here 0 (fun i node at_i => by simpa using at_i) member
  | .mapping mark close entries =>
      exact place_of_entries here (fun entry present => present) member

theorem place_of_items {root : Node} {refs : List Ref} {key : Option Mark} {mark close : Mark}
    {items rest : List Node} (here : At root refs key (.sequence mark close items)) (i : Nat)
    (suffix : ∀ j node, rest[j]? = some node → items[i + j]? = some node) {e : Entry}
    (member : e ∈ itemsInside (pointerOf refs) i rest) :
    ∃ refs' key' node', At root refs' key' node' ∧ e = placeEntry refs' key' node' := by
  match rest with
  | [] => cases member
  | node :: later =>
      rw [itemsInside, pathPushIndex_pointerOf, List.mem_cons, List.mem_append] at member
      have own : At root (refs ++ [.index i]) none node := .item here (suffix 0 node rfl)
      rcases member with rfl | inner | behind
      · exact ⟨_, _, _, own, rfl⟩
      · exact place_of_inside own inner
      · refine place_of_items here (i + 1) (fun j other at_j => ?_) behind
        rw [Nat.add_assoc, Nat.add_comm 1]
        exact suffix (j + 1) other at_j

theorem place_of_entries {root : Node} {refs : List Ref} {key : Option Mark} {mark close : Mark}
    {entries rest : List (Key × Node)} (here : At root refs key (.mapping mark close entries))
    (among : ∀ entry ∈ rest, entry ∈ entries) {e : Entry}
    (member : e ∈ entriesInside (pointerOf refs) rest) :
    ∃ refs' key' node', At root refs' key' node' ∧ e = placeEntry refs' key' node' := by
  match rest with
  | [] => cases member
  | (own, node) :: later =>
      rw [entriesInside, pathPushKey_pointerOf, List.mem_cons, List.mem_append] at member
      have place : At root (refs ++ [.key own.value]) (some own.mark) node :=
        .entry here (among _ (by simp))
      rcases member with rfl | inner | behind
      · exact ⟨_, _, _, place, rfl⟩
      · exact place_of_inside place inner
      · exact place_of_entries here (fun entry present => among entry (by simp [present])) behind

end

theorem mem_itemsInside (pointer : Bytes) (i : Nat) {items : List Node} {j : Nat} {node : Node}
    (at_j : items[j]? = some node) :
    ⟨pathPushIndex pointer (i + j), none, some (toPos node.mark)⟩ ∈ itemsInside pointer i items ∧
      ∀ e ∈ node.inside (pathPushIndex pointer (i + j)), e ∈ itemsInside pointer i items := by
  induction items generalizing i j with
  | nil => cases at_j
  | cons first rest inductionHypothesis =>
      rw [itemsInside]
      cases j with
      | zero =>
          cases at_j
          simp only [Nat.add_zero]
          exact ⟨by simp, fun e member => by simp [member]⟩
      | succ j =>
          obtain ⟨own, inner⟩ := inductionHypothesis (i + 1) at_j
          have same : i + 1 + j = i + (j + 1) := by omega
          rw [same] at own inner
          exact ⟨by simp [own], fun e member => by simp [inner e member]⟩

theorem mem_entriesInside (pointer : Bytes) {entries : List (Key × Node)} {own : Key} {node : Node}
    (here : (own, node) ∈ entries) :
    ⟨pathPushKey pointer own.value, some (toPos own.mark), some (toPos node.mark)⟩
        ∈ entriesInside pointer entries ∧
      ∀ e ∈ node.inside (pathPushKey pointer own.value), e ∈ entriesInside pointer entries := by
  induction entries with
  | nil => cases here
  | cons first rest inductionHypothesis =>
      obtain ⟨key, other⟩ := first
      rw [entriesInside]
      rcases List.mem_cons.mp here with same | later
      · cases same
        exact ⟨by simp, fun e member => by simp [member]⟩
      · obtain ⟨own, inner⟩ := inductionHypothesis later
        exact ⟨by simp [own], fun e member => by simp [inner e member]⟩

theorem placeEntry_mem {root node : Node} {refs : List Ref} {key : Option Mark}
    (here : At root refs key node) :
    placeEntry refs key node ∈ root.table ∧
      ∀ e ∈ node.inside (pointerOf refs), e ∈ root.table := by
  induction here with
  | root => exact ⟨by simp [Node.table, placeEntry, pointerOf], fun e member =>
      by simp only [Node.table, List.mem_cons]; exact .inr member⟩
  | @item refs key mark close items i node parent here inductionHypothesis =>
      obtain ⟨own, inner⟩ := mem_itemsInside (pointerOf refs) 0 here
      rw [Nat.zero_add, pathPushIndex_pointerOf] at own inner
      exact ⟨inductionHypothesis.2 _ own, fun e member => inductionHypothesis.2 e (inner e member)⟩
  | @entry refs key mark close entries own node parent here inductionHypothesis =>
      obtain ⟨own, inner⟩ := mem_entriesInside (pointerOf refs) here
      rw [pathPushKey_pointerOf] at own inner
      exact ⟨inductionHypothesis.2 _ own, fun e member => inductionHypothesis.2 e (inner e member)⟩

theorem mem_table_iff {root : Node} {e : Entry} :
    e ∈ root.table ↔ ∃ refs key node, At root refs key node ∧ e = placeEntry refs key node := by
  constructor
  · intro member
    rcases List.mem_cons.mp member with rfl | inner
    · exact ⟨[], none, root, .root, rfl⟩
    · exact place_of_inside .root inner
  · rintro ⟨refs, key, node, here, rfl⟩
    exact (placeEntry_mem here).1

/-! ## A pointer names one place -/

theorem slash_notMem_escapeKey (key : Bytes) : 47 ∉ escapeKey key := by
  intro member
  obtain ⟨b, -, inside⟩ := List.mem_flatMap.mp member
  split_ifs at inside with tilde slash
  · exact absurd inside (by decide)
  · exact absurd inside (by decide)
  · rw [List.mem_singleton] at inside
    exact slash (by simp [← inside])

/-- What one byte becomes says which byte it was, and where the next one starts. -/
theorem escapeKey_injective {a b : Bytes} (same : escapeKey a = escapeKey b) : a = b := by
  induction a generalizing b with
  | nil =>
      cases b with
      | nil => rfl
      | cons y ys =>
          simp only [escapeKey, List.flatMap_nil, List.flatMap_cons] at same
          split_ifs at same <;> cases same
  | cons x xs inductionHypothesis =>
      cases b with
      | nil =>
          simp only [escapeKey, List.flatMap_nil, List.flatMap_cons] at same
          split_ifs at same <;> cases same
      | cons y ys =>
          have tilde : bytes "~0" = [126, 48] := rfl
          have slash : bytes "~1" = [126, 49] := rfl
          have split : x = y ∧ escapeKey xs = escapeKey ys := by
            simp only [escapeKey, List.flatMap_cons, tilde, slash] at same ⊢
            split_ifs at same with xTilde yTilde ySlash xSlash yTilde ySlash yTilde ySlash
            all_goals simp only [beq_iff_eq] at *
            all_goals simp_all
          rw [split.1, inductionHypothesis split.2]

theorem isDigit_of_mem_index {i : Nat} {b : UInt8} (member : b ∈ bytes (toString i)) :
    isDigit b = true := by
  rw [Template.bytes_toString] at member
  exact Template.isDigit_of_mem_decimalNat member

theorem index_injective {i j : Nat} (same : bytes (toString i) = bytes (toString j)) : i = j := by
  rw [Template.bytes_toString, Template.bytes_toString] at same
  exact Template.decimalNat_injective same

theorem slash_notMem_text (ref : Ref) : 47 ∉ ref.text := by
  cases ref with
  | key text => exact slash_notMem_escapeKey text
  | index i =>
      intro member
      exact absurd (isDigit_of_mem_index member) (by decide)

/-- The last token of a pointer stands behind its last slash. -/
theorem split_last {a b : Bytes} {x y : Bytes} (noSlash : 47 ∉ x) (noSlash' : 47 ∉ y)
    (same : a ++ 47 :: x = b ++ 47 :: y) : a = b ∧ x = y := by
  have reversed := congrArg List.reverse same
  simp only [List.reverse_append, List.reverse_cons, List.append_assoc, List.singleton_append]
    at reversed
  have cut := congrArg (List.takeWhile (· != 47)) reversed
  have before (z : Bytes) (rest : Bytes) (free : 47 ∉ z) :
      List.takeWhile (· != 47) (z.reverse ++ 47 :: rest) = z.reverse := by
    rw [List.takeWhile_append_of_pos]
    · simp
    · intro byte member
      rw [bne_iff_ne]
      rintro rfl
      exact free (List.mem_reverse.mp member)
  rw [before x _ noSlash, before y _ noSlash'] at cut
  have last : x = y := List.reverse_injective cut
  subst last
  exact ⟨List.append_cancel_right same, rfl⟩

mutual

/-- The entries of every mapping in a tree, a mapping before what is inside. -/
def Node.mappings : Node → List (List (Key × Node))
  | .scalar .. => []
  | .sequence _ _ items => itemsMappings items
  | .mapping _ _ entries => entries :: entriesMappings entries

def itemsMappings : List Node → List (List (Key × Node))
  | [] => []
  | node :: rest => node.mappings ++ itemsMappings rest

def entriesMappings : List (Key × Node) → List (List (Key × Node))
  | [] => []
  | (_, node) :: rest => node.mappings ++ entriesMappings rest

end

/-- No mapping has a key twice. -/
def Node.DistinctKeys (node : Node) : Prop :=
  ∀ entries ∈ node.mappings, (entries.map (·.1.value)).Nodup

/-- No key has a NUL in it. -/
def Node.CleanKeys (node : Node) : Prop :=
  ∀ entries ∈ node.mappings, ∀ entry ∈ entries, 0 ∉ entry.1.value

instance (node : Node) : Decidable node.DistinctKeys := by
  unfold Node.DistinctKeys
  infer_instance

instance (node : Node) : Decidable node.CleanKeys := by
  unfold Node.CleanKeys
  infer_instance

theorem mappings_of_item {items : List Node} {i : Nat} {node : Node} (here : items[i]? = some node) :
    node.mappings ⊆ itemsMappings items := by
  induction items generalizing i with
  | nil => cases here
  | cons first rest inductionHypothesis =>
      rw [itemsMappings]
      cases i with
      | zero =>
          cases here
          exact List.subset_append_left _ _
      | succ i => exact List.subset_append_of_subset_right _ (inductionHypothesis here)

theorem mappings_of_entry {entries : List (Key × Node)} {own : Key} {node : Node}
    (here : (own, node) ∈ entries) : node.mappings ⊆ entriesMappings entries := by
  induction entries with
  | nil => cases here
  | cons first rest inductionHypothesis =>
      obtain ⟨key, other⟩ := first
      rw [entriesMappings]
      rcases List.mem_cons.mp here with same | later
      · cases same
        exact List.subset_append_left _ _
      · exact List.subset_append_of_subset_right _ (inductionHypothesis later)

theorem mappings_of_at {root node : Node} {refs : List Ref} {key : Option Mark}
    (here : At root refs key node) : node.mappings ⊆ root.mappings := by
  induction here with
  | root => exact List.Subset.refl _
  | item parent here inductionHypothesis =>
      exact List.Subset.trans (mappings_of_item here) inductionHypothesis
  | entry parent here inductionHypothesis =>
      refine List.Subset.trans (mappings_of_entry here) ?_
      exact fun entries member => inductionHypothesis (by rw [Node.mappings]; simp [member])

theorem mem_mappings {root : Node} {refs : List Ref} {key : Option Mark} {mark close : Mark}
    {entries : List (Key × Node)} (here : At root refs key (.mapping mark close entries)) :
    entries ∈ root.mappings :=
  mappings_of_at here (by rw [Node.mappings]; simp)

theorem entry_unique {entries : List (Key × Node)} (distinct : (entries.map (·.1.value)).Nodup)
    {first second : Key × Node} (inFirst : first ∈ entries) (inSecond : second ∈ entries)
    (same : first.1.value = second.1.value) : first = second :=
  List.inj_on_of_nodup_map distinct inFirst inSecond same

/-- The place that a pointer names.  The kinds of the nodes on the way decide
between a key and an index of the same text. -/
theorem place_unique {root : Node} (distinct : root.DistinctKeys) {refs refs' : List Ref}
    {key key' : Option Mark} {node node' : Node} (first : At root refs key node)
    (second : At root refs' key' node') (same : pointerOf refs = pointerOf refs') :
    key = key' ∧ node = node' := by
  induction first generalizing refs' key' node' with
  | root =>
      cases second with
      | root => exact ⟨rfl, rfl⟩
      | item parent here => simp [pointerOf] at same
      | entry parent here => simp [pointerOf] at same
  | @item refs key mark close items i node parent here inductionHypothesis =>
      cases second with
      | root => simp [pointerOf] at same
      | @item refs' key' mark' close' items' j node' parent' here' =>
          rw [pointerOf_concat, pointerOf_concat] at same
          obtain ⟨before, last⟩ := split_last (slash_notMem_text _) (slash_notMem_text _) same
          obtain ⟨-, container⟩ := inductionHypothesis parent' before
          cases container
          have position : i = j := index_injective last
          subst position
          rw [here] at here'
          cases here'
          exact ⟨rfl, rfl⟩
      | @entry refs' key' mark' close' entries own node' parent' here' =>
          rw [pointerOf_concat, pointerOf_concat] at same
          obtain ⟨before, -⟩ := split_last (slash_notMem_text _) (slash_notMem_text _) same
          obtain ⟨-, container⟩ := inductionHypothesis parent' before
          cases container
  | @entry refs key mark close entries own node parent here inductionHypothesis =>
      cases second with
      | root => simp [pointerOf] at same
      | @item refs' key' mark' close' items j node' parent' here' =>
          rw [pointerOf_concat, pointerOf_concat] at same
          obtain ⟨before, -⟩ := split_last (slash_notMem_text _) (slash_notMem_text _) same
          obtain ⟨-, container⟩ := inductionHypothesis parent' before
          cases container
      | @entry refs' key' mark' close' entries' own' node' parent' here' =>
          rw [pointerOf_concat, pointerOf_concat] at same
          obtain ⟨before, last⟩ := split_last (slash_notMem_text _) (slash_notMem_text _) same
          obtain ⟨-, container⟩ := inductionHypothesis parent' before
          cases container
          have equal := entry_unique (distinct _ (mem_mappings parent)) here here'
            (escapeKey_injective last)
          cases equal
          exact ⟨rfl, rfl⟩

theorem nul_notMem_text {ref : Ref} (clean : ∀ text, ref = .key text → 0 ∉ text) :
    0 ∉ ref.text := by
  cases ref with
  | key text =>
      intro member
      obtain ⟨b, present, inside⟩ := List.mem_flatMap.mp member
      split_ifs at inside
      · exact absurd inside (by decide)
      · exact absurd inside (by decide)
      · rw [List.mem_singleton] at inside
        exact clean text rfl (inside ▸ present)
  | index i =>
      intro member
      exact absurd (isDigit_of_mem_index member) (by decide)

theorem nul_notMem_pointerOf {root : Node} (clean : root.CleanKeys) {refs : List Ref}
    {key : Option Mark} {node : Node} (here : At root refs key node) : 0 ∉ pointerOf refs := by
  have joined {refs : List Ref} {ref : Ref} (before : 0 ∉ pointerOf refs) (last : 0 ∉ ref.text) :
      0 ∉ pointerOf (refs ++ [ref]) := by
    simp only [pointerOf_concat, List.mem_append, List.mem_cons, not_or]
    exact ⟨before, by decide, last⟩
  induction here with
  | root => exact List.not_mem_nil
  | item parent here inductionHypothesis =>
      refine joined inductionHypothesis (nul_notMem_text ?_)
      rintro text ⟨⟩
  | entry parent here inductionHypothesis =>
      refine joined inductionHypothesis (nul_notMem_text ?_)
      rintro text ⟨⟩
      exact clean _ (mem_mappings parent) _ here

/-! ## The search -/

theorem ne_gt_iff_isLE {o : Ordering} : o ≠ .gt ↔ o.isLE = true := by
  cases o <;> decide

theorem ascending_of_pairwise {sorted : List Entry}
    (ordered : sorted.Pairwise fun a b => a.cmp b ≠ .gt) (pointer : Bytes) :
    Ascending (fun e => strcmp pointer e.pointer) sorted := by
  refine ordered.imp fun {a b} ab => ?_
  have below := ne_gt_iff_isLE.mp (strcmp_ne_gt ab)
  constructor
  · intro before
    exact Std.TransCmp.lt_of_lt_of_isLE before below
  · intro after
    rw [Std.OrientedCmp.gt_iff_lt] at after ⊢
    exact Std.TransCmp.lt_of_isLE_of_lt below after

/-- If entries of one pointer are one entry, the comparison orders the table. -/
theorem consistent_of_unique {table : List Entry}
    (unique : ∀ x ∈ table, ∀ y ∈ table, strcmp x.pointer y.pointer = .eq → x = y) :
    Consistent Entry.cmp table := by
  intro a inA b inB c inC ab bc
  cases first : strcmp a.pointer b.pointer with
  | gt => exact absurd first (strcmp_ne_gt ab)
  | eq =>
      rw [unique a inA b inB first]
      exact bc
  | lt =>
      have below := Std.TransCmp.lt_of_lt_of_isLE first (ne_gt_iff_isLE.mp (strcmp_ne_gt bc))
      rw [Entry.cmp, below]
      intro above
      cases above

/-- The entry that is found has the pointer, and one is found if there is one. -/
theorem find_spec {table sorted : List Entry} (finished : Finished table sorted)
    (unique : ∀ x ∈ table, ∀ y ∈ table, strcmp x.pointer y.pointer = .eq → x = y)
    (pointer : Bytes) :
    (∀ e ∈ table, strcmp pointer e.pointer = .eq → find sorted pointer = some e) ∧
      ((∀ e ∈ table, strcmp pointer e.pointer ≠ .eq) → find sorted pointer = none) := by
  obtain ⟨perm, ordered⟩ := finished
  have ascending := ascending_of_pairwise (ordered (consistent_of_unique unique)) pointer
  have sound {e : Entry} (found : find sorted pointer = some e) :
      e ∈ table ∧ strcmp pointer e.pointer = .eq := by
    obtain ⟨member, equal⟩ := mem_of_bsearch found
    exact ⟨perm.mem_iff.mp member, equal⟩
  constructor
  · intro e member equal
    have some_ := bsearch_isSome ascending (perm.mem_iff.mpr member) equal
    obtain ⟨other, found⟩ := Option.isSome_iff_exists.mp some_
    obtain ⟨known, same⟩ := sound found
    have chained : strcmp other.pointer e.pointer = .eq :=
      Std.TransCmp.eq_trans (Std.OrientedCmp.eq_symm same) equal
    rw [find, found, unique other known e member chained]
  · intro absent
    cases found : find sorted pointer with
    | none => rfl
    | some e =>
        obtain ⟨known, same⟩ := sound found
        exact absurd same (absent e known)

theorem table_unique {root : Node} (distinct : root.DistinctKeys) (clean : root.CleanKeys) :
    ∀ x ∈ root.table, ∀ y ∈ root.table, strcmp x.pointer y.pointer = .eq → x = y := by
  intro x inX y inY equal
  obtain ⟨refs, key, node, here, rfl⟩ := mem_table_iff.mp inX
  obtain ⟨refs', key', node', here', rfl⟩ := mem_table_iff.mp inY
  simp only [placeEntry, strcmp_eq_iff, cString_eq_self (nul_notMem_pointerOf clean here),
    cString_eq_self (nul_notMem_pointerOf clean here')] at equal
  obtain ⟨rfl, rfl⟩ := place_unique distinct here here' equal
  simp only [placeEntry, equal]

/-- The position table is exact.  After the events of a document without repeated
keys and without NULs in its keys, the pointer of every node gives the node's
start, the pointer of every mapping entry gives its key's, and any other string
gives nothing. -/
theorem positions_exact (strtod : Bytes → Number) (root : Node) (stream opens closes : Mark)
    (c : Ctx) (ran : handleEvents strtod .initial (root.document stream opens closes) = .ok c)
    (distinct : root.DistinctKeys) (clean : root.CleanKeys) (sorted : List Entry)
    (finished : Finished c.positions sorted) :
    (∀ refs key node, At root refs key node →
      positionsValue sorted (pointerOf refs) = some (toPos node.mark)) ∧
    (∀ refs keyMark node, At root refs (some keyMark) node →
      positionsKey sorted (pointerOf refs) = some (toPos keyMark)) ∧
    (∀ pointer, (∀ refs key node, At root refs key node → pointerOf refs ≠ cString pointer) →
      positionsValue sorted pointer = none) ∧
    ∀ pointer, (∀ refs keyMark node, At root refs (some keyMark) node →
        pointerOf refs ≠ cString pointer) →
      positionsKey sorted pointer = none := by
  rw [positions_of_document ran] at finished
  have search := find_spec finished (table_unique distinct clean)
  have found {refs : List Ref} {key : Option Mark} {node : Node} (here : At root refs key node) :
      find sorted (pointerOf refs) = some (placeEntry refs key node) :=
    (search (pointerOf refs)).1 _ (placeEntry_mem here).1 (strcmp_eq_iff.mpr rfl)
  have same {pointer : Bytes} {refs : List Ref} {key : Option Mark} {node : Node}
      (here : At root refs key node)
      (equal : strcmp pointer (placeEntry refs key node).pointer = .eq) :
      pointerOf refs = cString pointer := by
    have cut := strcmp_eq_iff.mp equal
    simp only [placeEntry, cString_eq_self (nul_notMem_pointerOf clean here)] at cut
    exact cut.symm
  refine ⟨fun refs key node here => ?_, fun refs keyMark node here => ?_,
    fun pointer absent => ?_, fun pointer absent => ?_⟩
  · rw [positionsValue, found here]
    rfl
  · rw [positionsKey, found here]
    rfl
  · have nothing : find sorted pointer = none := by
      apply (search pointer).2
      intro e member equal
      obtain ⟨refs, key, node, here, rfl⟩ := mem_table_iff.mp member
      exact absent refs key node here (same here equal)
    rw [positionsValue, nothing]
    rfl
  · by_cases known : ∃ e ∈ root.table, strcmp pointer e.pointer = .eq
    · obtain ⟨e, member, equal⟩ := known
      have hit := (search pointer).1 e member equal
      obtain ⟨refs, key, node, here, rfl⟩ := mem_table_iff.mp member
      rw [positionsKey, hit]
      cases key with
      | none => rfl
      | some keyMark => exact absurd (same here equal) (absent refs keyMark node here)
    · have nothing := (search pointer).2 fun e member equal => known ⟨e, member, equal⟩
      rw [positionsKey, nothing]
      rfl

/-! ## A document with an empty key and one to escape -/

/-- `"a/b": [x]` and `"": y`. -/
def slashDoc : Node :=
  .mapping ⟨0, 0⟩ ⟨2, 0⟩
    [(⟨⟨0, 0⟩, bytes "a/b", false⟩, .sequence ⟨0, 7⟩ ⟨0, 9⟩ [.scalar ⟨0, 8⟩ (bytes "x") true false]),
     (⟨⟨1, 0⟩, [], false⟩, .scalar ⟨1, 4⟩ (bytes "y") true false)]

/-- Its table, sorted. -/
def slashTable : List Entry :=
  [⟨[], none, some ⟨1, 1⟩⟩, ⟨bytes "/", some ⟨2, 1⟩, some ⟨2, 5⟩⟩,
   ⟨bytes "/a~1b", some ⟨1, 1⟩, some ⟨1, 8⟩⟩, ⟨bytes "/a~1b/0", none, some ⟨1, 9⟩⟩]

theorem positions_exact_slashDoc :
    positionsValue slashTable (pointerOf [.key (bytes "a/b"), .index 0]) = some ⟨1, 9⟩ ∧
      positionsKey slashTable (pointerOf [.key []]) = some ⟨2, 1⟩ := by
  have finished : Finished slashDoc.table slashTable := ⟨by decide, fun _ => by decide⟩
  obtain ⟨value, key, -⟩ := positions_exact (fun _ => .finite 0) slashDoc ⟨0, 0⟩ ⟨0, 0⟩ ⟨2, 0⟩ _ rfl
    (by decide) (by decide) slashTable finished
  have items : At slashDoc [.key (bytes "a/b")] (some ⟨0, 0⟩)
      (.sequence ⟨0, 7⟩ ⟨0, 9⟩ [.scalar ⟨0, 8⟩ (bytes "x") true false]) :=
    .entry .root (.head _)
  have item : At slashDoc [.key (bytes "a/b"), .index 0] none
      (.scalar ⟨0, 8⟩ (bytes "x") true false) := .item items rfl
  have empty : At slashDoc [.key []] (some ⟨1, 0⟩) (.scalar ⟨1, 4⟩ (bytes "y") true false) :=
    .entry .root (.tail _ (.head _))
  exact ⟨value _ _ _ item, key _ _ _ empty⟩

end Qwe.Yaml
