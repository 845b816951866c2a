import Qwe.Lib.Search
import Qwe.Yaml.Meaning

/-!
# The position table

`src/edge/yaml/positions.c` over the entries that the handler has added, and the
entries that a tree of nodes leaves there: one for the root, one for each item
of a sequence and one for each entry of a mapping.

The handler builds every pointer in one buffer, of which each open container
remembers how much is its own.
-/

set_option autoImplicit false

namespace Qwe.Yaml

open Qwe.Search Qwe.Lua
open Qwe.Redact (Bytes)
open Qwe.Template (bytes)

/-- `strcmp`: both sides end at their first NUL. -/
def strcmp (a b : Bytes) : Ordering := compare (cString a) (cString b)

/-- Lines first, then columns. -/
def Mark.cmp (a b : Mark) : Ordering := (compare a.line b.line).then (compare a.column b.column)

instance : Std.TransCmp strcmp where
  eq_swap {a b} := by
    unfold strcmp
    exact Std.OrientedCmp.eq_swap
  isLE_trans {a b c} := by
    unfold strcmp
    exact Std.TransCmp.isLE_trans

instance : Std.TransCmp Mark.cmp :=
  inferInstanceAs (Std.TransCmp (compareLex (compareOn Mark.line) (compareOn Mark.column)))

/-- `cmp`: by pointer, then by key position, where both entries have one. -/
def Entry.cmp (x y : Entry) : Ordering :=
  match strcmp x.pointer y.pointer with
  | .eq =>
      match x.key, y.key with
      | some a, some b => a.cmp b
      | _, _ => .eq
  | c => c

/-- `qwe_positions_finish` may leave the table so. -/
def Finished (table sorted : List Entry) : Prop := Sorts Entry.cmp table sorted

/-- `find` -/
def find (sorted : List Entry) (pointer : Bytes) : Option Entry :=
  bsearch (fun e => strcmp pointer e.pointer) sorted

/-- `qwe_positions_value`; nothing where the C function returns -1. -/
def positionsValue (sorted : List Entry) (pointer : Bytes) : Option Mark :=
  (find sorted pointer).bind Entry.value

/-- `qwe_positions_key` -/
def positionsKey (sorted : List Entry) (pointer : Bytes) : Option Mark :=
  (find sorted pointer).bind Entry.key

/-- A call of the callback: the pointer and the two positions. -/
structure Report where
  pointer : Bytes
  first : Mark
  second : Mark
deriving DecidableEq, Repr

/-- What an entry with the pointer of `first` is reported for. -/
def reportOf (first e : Entry) : List Report :=
  match first.key, e.key with
  | some a, some b => [⟨e.pointer, a, b⟩]
  | _, _ => []

/-- The loop of `qwe_positions_duplicates` behind the entry `first`. -/
def duplicatesFrom (first : Entry) : List Entry → List Report
  | [] => []
  | e :: rest =>
      if strcmp e.pointer first.pointer ≠ .eq then duplicatesFrom e rest
      else reportOf first e ++ duplicatesFrom first rest

/-- `qwe_positions_duplicates`: the calls it makes, in order. -/
def positionsDuplicates : List Entry → List Report
  | [] => []
  | e :: rest => duplicatesFrom e rest

theorem strcmp_eq_iff {a b : Bytes} : strcmp a b = .eq ↔ cString a = cString b := by
  rw [strcmp, Std.compare_eq_iff_eq]

theorem Mark.cmp_eq_iff {a b : Mark} : a.cmp b = .eq ↔ a = b := by
  rw [Mark.cmp, Ordering.then_eq_eq, Std.compare_eq_iff_eq, Std.compare_eq_iff_eq]
  cases a
  cases b
  simp

/-- The entries of a table in ascending order are in ascending order of their pointers. -/
theorem strcmp_ne_gt {x y : Entry} (ordered : x.cmp y ≠ .gt) :
    strcmp x.pointer y.pointer ≠ .gt := by
  intro above
  rw [Entry.cmp, above] at ordered
  exact ordered rfl

/-! ## The entries of a tree -/

def Node.mark : Node → Mark
  | .scalar mark .. => mark
  | .sequence mark .. => mark
  | .mapping mark .. => mark

mutual

/-- The entries of what is inside a node with this pointer, in document order. -/
def Node.inside (pointer : Bytes) : Node → List Entry
  | .scalar .. => []
  | .sequence _ _ items => itemsInside pointer 0 items
  | .mapping _ _ entries => entriesInside pointer entries

def itemsInside (pointer : Bytes) (i : Nat) : List Node → List Entry
  | [] => []
  | node :: rest =>
      ⟨pathPushIndex pointer i, none, some (toPos node.mark)⟩ ::
        (node.inside (pathPushIndex pointer i) ++ itemsInside pointer (i + 1) rest)

def entriesInside (pointer : Bytes) : List (Key × Node) → List Entry
  | [] => []
  | (key, node) :: rest =>
      ⟨pathPushKey pointer key.value, some (toPos key.mark), some (toPos node.mark)⟩ ::
        (node.inside (pathPushKey pointer key.value) ++ entriesInside pointer rest)

end

/-- The whole table of a document. -/
def Node.table (node : Node) : List Entry :=
  ⟨[], none, some (toPos node.mark)⟩ :: node.inside []

/-! ## What the events add -/

section
variable {strtod : Bytes → Number}

theorem handleEvents_cons {c c' : Ctx} {ev : Event} {rest : List Event}
    (ran : handleEvents strtod c (ev :: rest) = .ok c') :
    ∃ mid, handleEvent strtod c ev = .ok mid ∧ handleEvents strtod mid rest = .ok c' := by
  rw [handleEvents] at ran
  split at ran
  · cases ran
  · exact ⟨_, ‹_›, ran⟩

theorem handleEvents_split {c c' : Ctx} {first second : List Event}
    (ran : handleEvents strtod c (first ++ second) = .ok c') :
    ∃ mid, handleEvents strtod c first = .ok mid ∧ handleEvents strtod mid second = .ok c' := by
  induction first generalizing c with
  | nil => exact ⟨c, rfl, ran⟩
  | cons ev first inductionHypothesis =>
      obtain ⟨next, handled, later⟩ := handleEvents_cons ran
      obtain ⟨mid, before, after⟩ := inductionHypothesis later
      exact ⟨mid, by rw [handleEvents, handled]; exact before, after⟩

/-- The parts of the context that pointers depend on. -/
def Ctx.Alike (c c' : Ctx) : Prop :=
  c'.levels = c.levels ∧ c'.path = c.path ∧ c'.positions = c.positions

theorem alike_valueDone {c c' : Ctx} (alike : c.Alike c') :
    (valueDone c).Alike (valueDone c') := by
  obtain ⟨levels, path, positions⟩ := alike
  unfold valueDone
  rw [levels]
  cases c.levels with
  | nil => exact ⟨levels ▸ rfl, path, positions⟩
  | cons level outer =>
      cases kind : level.isMap with
      | true => exact ⟨by simp [kind], by simpa [kind] using path, by simpa [kind] using positions⟩
      | false =>
          exact ⟨by simpa [kind] using levels, by simpa [kind] using path,
            by simpa [kind] using positions⟩

/-- A scalar where a value stands. -/
theorem scalar_notes {c c' : Ctx} {mark : Mark} {data : ScalarData} (turn : c.isKey = false)
    (ran : handleEvent strtod c ⟨.scalar data, mark⟩ = .ok c') :
    (valueDone (noteValue c mark)).Alike c' := by
  simp only [handleEvent, turn, Bool.false_eq_true, false_and, if_false] at ran
  split at ran
  · cases ran
  split at ran
  · cases ran
  · cases ran
    exact alike_valueDone ⟨rfl, rfl, rfl⟩

/-- A scalar where a key stands. -/
theorem key_notes {c c' : Ctx} {mark : Mark} {data : ScalarData} (turn : c.isKey = true)
    (ran : handleEvent strtod c ⟨.scalar data, mark⟩ = .ok c') :
    (valueDone (noteKey c mark data.value)).Alike c' := by
  simp only [handleEvent, turn, if_true] at ran
  split at ran
  · cases ran
  split_ifs at ran
  · cases ran
  split at ran
  · cases ran
  · cases ran
    exact alike_valueDone ⟨rfl, rfl, rfl⟩

/-- The level that a container opens over the levels that are there. -/
theorem start_notes {c c' : Ctx} {mark : Mark} {isMap : Bool} {tag : Option Bytes} {anchor : Bool}
    (ran : handleEvent strtod c ⟨.start isMap tag anchor, mark⟩ = .ok c') :
    c.isKey = false ∧
    c'.levels = ⟨isMap, true, (noteValue c mark).path.length, 0, 0⟩ :: (noteValue c mark).levels ∧
      c'.path = (noteValue c mark).path ∧ c'.positions = (noteValue c mark).positions := by
  simp only [handleEvent, openContainer] at ran
  split at ran
  · cases ran
  by_cases key : c.isKey = true
  · rw [if_pos key] at ran
    cases ran
  by_cases deep : c.depth ≥ yamlMaxDepth
  · rw [if_neg key, if_pos deep] at ran
    cases ran
  by_cases deeper : (noteValue c mark).depth ≥ yamlMaxDepth
  · rw [if_neg key, if_neg deep, if_pos deeper] at ran
    cases ran
  · rw [if_neg key, if_neg deep, if_neg deeper] at ran
    cases ran
    exact ⟨Bool.eq_false_of_not_eq_true key, rfl, rfl, rfl⟩

theorem finish_notes {c c' : Ctx} {mark : Mark} {isMap : Bool} {level : Level} {outer : List Level}
    (levels : c.levels = level :: outer)
    (ran : handleEvent strtod c ⟨.finish isMap, mark⟩ = .ok c') :
    (valueDone { c with levels := outer }).Alike c' := by
  simp only [handleEvent, levels] at ran
  split_ifs at ran
  · cases ran
  · cases ran
    exact alike_valueDone ⟨rfl, rfl, rfl⟩

end

end Qwe.Yaml
