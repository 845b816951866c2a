import Mathlib.Data.List.Pairwise
import Qwe.Yaml.Lookup

/-!
# Repeated keys

The keys of a document, mapping by mapping, and those among them that repeat an
earlier key of their mapping.  The positions of the keys increase in document
order, so a position stands for one key of one mapping.
-/

set_option autoImplicit false

namespace Qwe.Yaml

open Qwe.Search Qwe.Lua
open Qwe.Redact (Bytes)
open Qwe.Template (bytes)

mutual

/-- The keys of a tree, in document order. -/
def Node.keyNodes : Node → List Key
  | .scalar .. => []
  | .sequence _ _ items => itemsKeyNodes items
  | .mapping _ _ entries => entriesKeyNodes entries

def itemsKeyNodes : List Node → List Key
  | [] => []
  | node :: rest => node.keyNodes ++ itemsKeyNodes rest

def entriesKeyNodes : List (Key × Node) → List Key
  | [] => []
  | (key, node) :: rest => key :: (node.keyNodes ++ entriesKeyNodes rest)

end

/-- libyaml reports every key behind the one before it. -/
def Node.Increasing (node : Node) : Prop :=
  node.keyNodes.Pairwise fun a b => a.mark.cmp b.mark = .lt

instance (node : Node) : Decidable node.Increasing := by
  unfold Node.Increasing
  infer_instance

/-- The repeats among keys of one mapping: the position of the first key of the
same text, and the key's own. -/
def repeatsIn (seen : List Key) : List Key → List (Mark × Mark)
  | [] => []
  | key :: rest =>
      match seen.find? fun earlier => earlier.value == key.value with
      | some first => (toPos first.mark, toPos key.mark) :: repeatsIn (seen ++ [key]) rest
      | none => repeatsIn (seen ++ [key]) rest

/-- All repeats of a document. -/
def Node.repeats (node : Node) : List (Mark × Mark) :=
  node.mappings.flatMap fun entries => repeatsIn [] (entries.map Prod.fst)

/-- The two positions are those of keys of one mapping with one text. -/
def Siblings (root : Node) (a b : Mark) : Prop :=
  ∃ entries ∈ root.mappings, ∃ k ∈ entries.map Prod.fst, ∃ l ∈ entries.map Prod.fst,
    k.value = l.value ∧ toPos k.mark = a ∧ toPos l.mark = b

/-! ## Positions stand for keys -/

theorem cmp_toPos (a b : Mark) : (toPos a).cmp (toPos b) = a.cmp b := by
  have succ (m n : Nat) : compare (m + 1) (n + 1) = compare m n := by
    simp [Nat.compare_eq_ite_lt]
  simp only [Mark.cmp, toPos, succ]

theorem toPos_injective {a b : Mark} (same : toPos a = toPos b) : a = b := by
  rw [← Mark.cmp_eq_iff, ← cmp_toPos, same, Mark.cmp_eq_iff]

mutual

theorem keyNodes_perm (node : Node) :
    (node.mappings.flatMap fun entries => entries.map Prod.fst).Perm node.keyNodes := by
  match node with
  | .scalar .. => exact List.Perm.refl _
  | .sequence _ _ items => exact itemsKeyNodes_perm items
  | .mapping _ _ entries =>
      rw [Node.mappings, List.flatMap_cons]
      exact entriesKeyNodes_perm entries

theorem itemsKeyNodes_perm (items : List Node) :
    ((itemsMappings items).flatMap fun entries => entries.map Prod.fst).Perm
      (itemsKeyNodes items) := by
  match items with
  | [] => exact List.Perm.refl _
  | node :: rest =>
      rw [itemsMappings, itemsKeyNodes, List.flatMap_append]
      exact (keyNodes_perm node).append (itemsKeyNodes_perm rest)

theorem entriesKeyNodes_perm (entries : List (Key × Node)) :
    (entries.map Prod.fst ++ (entriesMappings entries).flatMap fun entries =>
      entries.map Prod.fst).Perm (entriesKeyNodes entries) := by
  match entries with
  | [] => exact List.Perm.refl _
  | (key, node) :: rest =>
      rw [entriesMappings, entriesKeyNodes, List.flatMap_append, List.map_cons, List.cons_append]
      apply List.Perm.cons
      -- the keys of the node stand between the key and the other keys of the mapping
      refine List.perm_append_comm_assoc _ _ _ |>.trans ?_
      exact (keyNodes_perm node).append (entriesKeyNodes_perm rest)

end

theorem keys_sublist_keyNodes (entries : List (Key × Node)) :
    (entries.map Prod.fst).Sublist (entriesKeyNodes entries) := by
  induction entries with
  | nil => exact List.Sublist.refl _
  | cons first rest inductionHypothesis =>
      obtain ⟨key, node⟩ := first
      rw [List.map_cons, entriesKeyNodes]
      exact (inductionHypothesis.trans (List.sublist_append_right _ _)).cons_cons key

mutual

theorem mapping_sublist {node : Node} {entries : List (Key × Node)}
    (member : entries ∈ node.mappings) : (entries.map Prod.fst).Sublist node.keyNodes := by
  match node with
  | .scalar .. => cases member
  | .sequence _ _ items => exact mapping_sublist_items member
  | .mapping _ _ own =>
      rw [Node.mappings, List.mem_cons] at member
      rcases member with rfl | inner
      · exact keys_sublist_keyNodes entries
      · exact mapping_sublist_entries inner

theorem mapping_sublist_items {items : List Node} {entries : List (Key × Node)}
    (member : entries ∈ itemsMappings items) :
    (entries.map Prod.fst).Sublist (itemsKeyNodes items) := by
  match items with
  | [] => cases member
  | node :: rest =>
      rw [itemsMappings, List.mem_append] at member
      rw [itemsKeyNodes]
      rcases member with inner | later
      · exact (mapping_sublist inner).trans (List.sublist_append_left _ _)
      · exact (mapping_sublist_items later).trans (List.sublist_append_right _ _)

theorem mapping_sublist_entries {all : List (Key × Node)} {entries : List (Key × Node)}
    (member : entries ∈ entriesMappings all) :
    (entries.map Prod.fst).Sublist (entriesKeyNodes all) := by
  match all with
  | [] => cases member
  | (key, node) :: rest =>
      rw [entriesMappings, List.mem_append] at member
      rw [entriesKeyNodes]
      apply List.Sublist.cons
      rcases member with inner | later
      · exact (mapping_sublist inner).trans (List.sublist_append_left _ _)
      · exact (mapping_sublist_entries later).trans (List.sublist_append_right _ _)

end

theorem mem_keyNodes {root : Node} {entries : List (Key × Node)} (member : entries ∈ root.mappings)
    {k : Key} (present : k ∈ entries.map Prod.fst) : k ∈ root.keyNodes :=
  (mapping_sublist member).subset present

section Increasing
variable {root : Node} (increasing : root.Increasing)

include increasing

theorem positions_nodup : (root.keyNodes.map fun key => toPos key.mark).Nodup := by
  apply List.pairwise_map.mpr
  apply increasing.imp
  intro a b less same
  rw [Mark.cmp_eq_iff.mpr (toPos_injective same)] at less
  cases less

/-- A position is that of one key. -/
theorem key_unique {k l : Key} (inK : k ∈ root.keyNodes) (inL : l ∈ root.keyNodes)
    (same : toPos k.mark = toPos l.mark) : k = l :=
  List.inj_on_of_nodup_map (positions_nodup increasing) inK inL same

/-- A position is that of a key of one mapping. -/
theorem mapping_unique {first second : List (Key × Node)} (inFirst : first ∈ root.mappings)
    (inSecond : second ∈ root.mappings) {k : Key} (kFirst : k ∈ first.map Prod.fst)
    (kSecond : k ∈ second.map Prod.fst) : first = second := by
  have nodup : (root.mappings.flatMap fun entries => entries.map Prod.fst).Nodup :=
    (keyNodes_perm root).nodup_iff.mpr (List.Nodup.of_map _ (positions_nodup increasing))
  by_contra differ
  have disjoint := (List.nodup_flatMap.mp nodup).2
  have symmetric : Std.Symm
      (Function.onFun List.Disjoint fun entries : List (Key × Node) => entries.map Prod.fst) :=
    ⟨fun a b apart key inB inA => apart inA inB⟩
  exact disjoint.forall inFirst inSecond differ kFirst kSecond

omit increasing in
theorem Siblings.symm {a b : Mark} (siblings : Siblings root a b) : Siblings root b a := by
  obtain ⟨entries, member, k, inK, l, inL, text, atA, atB⟩ := siblings
  exact ⟨entries, member, l, inL, k, inK, text.symm, atB, atA⟩

theorem Siblings.trans {a b c : Mark} (first : Siblings root a b) (second : Siblings root b c) :
    Siblings root a c := by
  obtain ⟨entries, member, k, inK, l, inL, text, atA, atB⟩ := first
  obtain ⟨entries', member', k', inK', l', inL', text', atB', atC⟩ := second
  have same : l = k' := key_unique increasing (mem_keyNodes member inL)
    (mem_keyNodes member' inK') (atB.trans atB'.symm)
  subst same
  have mapping : entries = entries' := mapping_unique increasing member member' inL inK'
  subst mapping
  exact ⟨entries, member, k, inK, l', inL', text.trans text', atA, atC⟩

end Increasing

/-! ## The repeats, without their order -/

theorem mem_repeatsIn {seen keys : List Key} {a b : Mark} :
    (a, b) ∈ repeatsIn seen keys ↔ ∃ front key back first, keys = front ++ key :: back ∧
      (seen ++ front).find? (fun earlier => earlier.value == key.value) = some first ∧
      a = toPos first.mark ∧ b = toPos key.mark := by
  induction keys generalizing seen with
  | nil => simp [repeatsIn]
  | cons key rest inductionHypothesis =>
      -- a repeat is the first key, or one of the rest with the first key seen
      have split : (∃ front own back first, key :: rest = front ++ own :: back ∧
            (seen ++ front).find? (fun earlier => earlier.value == own.value) = some first ∧
            a = toPos first.mark ∧ b = toPos own.mark) ↔
          (∃ first, seen.find? (fun earlier => earlier.value == key.value) = some first ∧
            a = toPos first.mark ∧ b = toPos key.mark) ∨
          (a, b) ∈ repeatsIn (seen ++ [key]) rest := by
        rw [inductionHypothesis]
        constructor
        · rintro ⟨front, own, back, first, cut, found, atA, atB⟩
          cases front with
          | nil =>
              cases cut
              rw [List.append_nil] at found
              exact .inl ⟨first, found, atA, atB⟩
          | cons head front =>
              cases cut
              refine .inr ⟨front, own, back, first, rfl, ?_, atA, atB⟩
              rw [List.append_assoc, List.singleton_append]
              exact found
        · rintro (⟨first, found, atA, atB⟩ | ⟨front, own, back, first, rfl, found, atA, atB⟩)
          · exact ⟨[], key, rest, first, rfl, by rw [List.append_nil]; exact found, atA, atB⟩
          · rw [List.append_assoc, List.singleton_append] at found
            exact ⟨key :: front, own, back, first, rfl, found, atA, atB⟩
      rw [split, repeatsIn]
      cases found : seen.find? fun earlier => earlier.value == key.value with
      | none => simp
      | some first => simp [Prod.ext_iff]

/-- Of keys in ascending order, the one that is found first is the lowest. -/
theorem find_lowest {keys : List Key} (ascending : keys.Pairwise fun a b => a.mark.cmp b.mark = .lt)
    {text : Bytes} {first : Key}
    (found : keys.find? (fun earlier => earlier.value == text) = some first) :
    ∀ other ∈ keys, other.value = text → first.mark.cmp other.mark ≠ .gt := by
  intro other member same
  have ordered : keys.Pairwise fun a b => a.mark.cmp b.mark ≠ .gt :=
    ascending.imp fun {a b} less => by rw [less]; decide
  have reflexive (key : Key) : key.mark.cmp key.mark ≠ .gt := by
    rw [Mark.cmp_eq_iff.mpr rfl]
    decide
  exact first_of_find reflexive ordered found other member (by simp [same])

theorem mem_repeatsIn_iff {keys : List Key}
    (ascending : keys.Pairwise fun a b => a.mark.cmp b.mark = .lt) {a b : Mark} :
    (a, b) ∈ repeatsIn [] keys ↔ ∃ first ∈ keys, ∃ key ∈ keys, first.value = key.value ∧
      first.mark.cmp key.mark = .lt ∧
      (∀ other ∈ keys, other.value = key.value → first.mark.cmp other.mark ≠ .gt) ∧
      a = toPos first.mark ∧ b = toPos key.mark := by
  rw [mem_repeatsIn]
  constructor
  · rintro ⟨front, key, back, first, rfl, found, atA, atB⟩
    rw [List.nil_append] at found
    have inFront := List.mem_of_find?_eq_some found
    have text : first.value = key.value := by simpa using List.find?_some found
    obtain ⟨ordered, -, across⟩ := List.pairwise_append.mp ascending
    refine ⟨first, by simp [inFront], key, by simp, text, across first inFront key (by simp), ?_,
      atA, atB⟩
    intro other member same
    rcases List.mem_append.mp member with early | late
    · exact find_lowest ordered found other early same
    · rw [across first inFront other late]
      decide
  · rintro ⟨first, inFirst, key, inKey, text, less, lowest, atA, atB⟩
    obtain ⟨front, back, rfl⟩ := List.append_of_mem inKey
    obtain ⟨ordered, later, across⟩ := List.pairwise_append.mp ascending
    have inFront : first ∈ front := by
      rcases List.mem_append.mp inFirst with early | late
      · exact early
      · exfalso
        rcases List.mem_cons.mp late with rfl | behind
        · rw [Mark.cmp_eq_iff.mpr rfl] at less
          cases less
        · have more := (List.pairwise_cons.mp later).1 first behind
          rw [← Std.OrientedCmp.gt_iff_lt] at more
          rw [less] at more
          cases more
    have some_ : (front.find? fun earlier => earlier.value == key.value).isSome := by
      rw [List.find?_isSome]
      exact ⟨first, inFront, by simp [text]⟩
    obtain ⟨found, equation⟩ := Option.isSome_iff_exists.mp some_
    have below := find_lowest ordered equation first inFront text
    have textOf : found.value = key.value := by simpa using List.find?_some equation
    have above := lowest found
      (List.mem_append_left _ (List.mem_of_find?_eq_some equation)) textOf
    have same : first.mark = found.mark := by
      rw [← Mark.cmp_eq_iff]
      exact Std.OrientedCmp.isLE_antisymm (ne_gt_iff_isLE.mp above) (ne_gt_iff_isLE.mp below)
    exact ⟨front, key, back, found, rfl, equation, by rw [atA, same], atB⟩

/-- A repeat: a key, and the lowest key of its mapping with its text. -/
theorem mem_repeats_iff {root : Node} (increasing : root.Increasing) {a b : Mark} :
    (a, b) ∈ root.repeats ↔ ∃ entries ∈ root.mappings, ∃ first ∈ entries.map Prod.fst,
      ∃ key ∈ entries.map Prod.fst, first.value = key.value ∧ first.mark.cmp key.mark = .lt ∧
      (∀ other ∈ entries.map Prod.fst, other.value = key.value →
        first.mark.cmp other.mark ≠ .gt) ∧
      a = toPos first.mark ∧ b = toPos key.mark := by
  rw [Node.repeats, List.mem_flatMap]
  constructor
  · rintro ⟨entries, member, inside⟩
    have ascending := increasing.sublist (mapping_sublist member)
    exact ⟨entries, member, (mem_repeatsIn_iff ascending).mp inside⟩
  · rintro ⟨entries, member, inside⟩
    have ascending := increasing.sublist (mapping_sublist member)
    exact ⟨entries, member, (mem_repeatsIn_iff ascending).mpr inside⟩

theorem siblings_of_repeats {root : Node} (increasing : root.Increasing) {a b : Mark}
    (repeated : (a, b) ∈ root.repeats) : Siblings root a b := by
  obtain ⟨entries, member, first, inFirst, key, inKey, text, -, -, atA, atB⟩ :=
    (mem_repeats_iff increasing).mp repeated
  exact ⟨entries, member, first, inFirst, key, inKey, text, atA.symm, atB.symm⟩

/-- The later of two siblings is a repeat. -/
theorem exists_repeat {root : Node} (increasing : root.Increasing) {a b : Mark}
    (siblings : Siblings root a b) (less : a.cmp b = .lt) : ∃ f, (f, b) ∈ root.repeats := by
  obtain ⟨entries, member, k, inK, l, inL, text, atA, atB⟩ := siblings
  have ascending := increasing.sublist (mapping_sublist member)
  have some_ : ((entries.map Prod.fst).find? fun earlier => earlier.value == l.value).isSome := by
    rw [List.find?_isSome]
    exact ⟨k, inK, by simp [text]⟩
  obtain ⟨first, found⟩ := Option.isSome_iff_exists.mp some_
  have lowest := find_lowest ascending found
  have before : first.mark.cmp l.mark = .lt := by
    rw [← atA, ← atB, cmp_toPos] at less
    exact Std.TransCmp.lt_of_isLE_of_lt (ne_gt_iff_isLE.mp (lowest k inK text)) less
  have textOf : first.value = l.value := by simpa using List.find?_some found
  exact ⟨toPos first.mark, (mem_repeats_iff increasing).mpr ⟨entries, member, first,
    List.mem_of_find?_eq_some found, l, inL, textOf, before, lowest, rfl, atB.symm⟩⟩

theorem snd_repeatsIn_sublist (seen keys : List Key) :
    ((repeatsIn seen keys).map Prod.snd).Sublist (keys.map fun key => toPos key.mark) := by
  induction keys generalizing seen with
  | nil => exact List.Sublist.refl _
  | cons key rest inductionHypothesis =>
      rw [repeatsIn]
      cases seen.find? fun earlier => earlier.value == key.value with
      | none => exact (inductionHypothesis _).cons _
      | some first => exact (inductionHypothesis _).cons_cons _

theorem repeats_nodup {root : Node} (increasing : root.Increasing) : root.repeats.Nodup := by
  have below : (root.repeats.map Prod.snd).Sublist
      (root.mappings.flatMap fun entries => (entries.map Prod.fst).map fun key =>
        toPos key.mark) := by
    rw [Node.repeats, List.map_flatMap]
    generalize root.mappings = mappings
    induction mappings with
    | nil => exact List.Sublist.refl _
    | cons entries rest inductionHypothesis =>
        rw [List.flatMap_cons, List.flatMap_cons]
        exact (snd_repeatsIn_sublist [] _).append inductionHypothesis
  rw [← List.map_flatMap] at below
  have all := ((keyNodes_perm root).map fun key => toPos key.mark).nodup_iff.mpr
    (positions_nodup increasing)
  exact List.Nodup.of_map _ (below.nodup all)

end Qwe.Yaml
