import Qwe.Yaml.Positions

/-!
# The table that a run leaves

By induction on the tree: whatever the handler does inside a node, the buffer
still starts with the node's pointer, the levels outside are as they were, and
the table has grown by the entries of what is inside.
-/

set_option autoImplicit false

namespace Qwe.Yaml

open Qwe.Lua
open Qwe.Redact (Bytes)

/-- The levels once a value is done. -/
def doneLevels : List Level → List Level
  | [] => []
  | level :: outer =>
      if level.isMap then { level with expectKey := !level.expectKey } :: outer else level :: outer

theorem valueDone_notes (c : Ctx) :
    (valueDone c).levels = doneLevels c.levels ∧ (valueDone c).path = c.path ∧
      (valueDone c).positions = c.positions := by
  unfold valueDone
  cases levels : c.levels with
  | nil => exact ⟨levels, rfl, rfl⟩
  | cons level outer =>
      simp only [doneLevels]
      split_ifs
      · exact ⟨rfl, rfl, rfl⟩
      · exact ⟨levels, rfl, rfl⟩

/-- What has happened when a value is done: `noted` is the context with its place
noted, `inside` what is inside of it. -/
structure Visited (noted c : Ctx) (inside : List Entry) : Prop where
  levels : c.levels = doneLevels noted.levels
  starts : noted.path <+: c.path
  positions : c.positions = noted.positions ++ inside

theorem Visited.of_alike {noted c : Ctx} (alike : (valueDone noted).Alike c) :
    Visited noted c [] := by
  obtain ⟨levels, path, positions⟩ := alike
  obtain ⟨done, samePath, samePositions⟩ := valueDone_notes noted
  refine ⟨levels.trans done, ?_, ?_⟩
  · rw [path, samePath]
  · rw [positions, samePositions, List.append_nil]

theorem pathPushIndex_of_prefix {pointer path : Bytes} (starts : pointer <+: path) (i : Nat) :
    pathPushIndex (path.take pointer.length) i = pathPushIndex pointer i := by
  rw [← List.prefix_iff_eq_take.mp starts]

theorem pathPushKey_of_prefix {pointer path : Bytes} (starts : pointer <+: path) (key : Bytes) :
    pathPushKey (path.take pointer.length) key = pathPushKey pointer key := by
  rw [← List.prefix_iff_eq_take.mp starts]

theorem prefix_pathPushIndex (pointer : Bytes) (i : Nat) : pointer <+: pathPushIndex pointer i := by
  rw [pathPushIndex, List.append_assoc]
  exact List.prefix_append pointer _

theorem prefix_pathPushKey (pointer key : Bytes) : pointer <+: pathPushKey pointer key := by
  rw [pathPushKey, List.append_assoc]
  exact List.prefix_append pointer _

theorem modify_last (table : List Entry) (e : Entry) (f : Entry → Entry) :
    (table ++ [e]).modify table.length f = table ++ [f e] := by
  induction table with
  | nil => rfl
  | cons first rest inductionHypothesis =>
      rw [List.cons_append, List.length_cons, List.modify_succ_cons, inductionHypothesis]
      rfl

section
variable {strtod : Bytes → Number}

/-- What the events inside a container do: the container's level is there again,
with a pointer that the buffer still starts with. -/
theorem visited_of_finish {c opened filled c' : Ctx} {mark close : Mark} {isMap : Bool}
    {inside : List Entry} {level : Level} (levels : filled.levels = level :: (noteValue c mark).levels)
    (starts : (noteValue c mark).path <+: filled.path)
    (grown : filled.positions = opened.positions ++ inside)
    (same : opened.positions = (noteValue c mark).positions)
    (ran : handleEvents strtod filled [⟨.finish isMap, close⟩] = .ok c') :
    Visited (noteValue c mark) c' inside := by
  obtain ⟨last, handled, rest⟩ := handleEvents_cons ran
  cases rest
  have ends := Visited.of_alike (finish_notes levels handled)
  refine ⟨ends.levels, starts.trans ends.starts, ?_⟩
  rw [ends.positions, List.append_nil]
  exact grown.trans (by rw [same])

mutual

theorem visited_node (node : Node) {c c' : Ctx} (turn : c.isKey = false)
    (ran : handleEvents strtod c node.events = .ok c') :
    Visited (noteValue c node.mark) c' (node.inside (noteValue c node.mark).path) := by
  match node with
  | .scalar mark value plain encrypted =>
      rw [Node.events] at ran
      obtain ⟨last, handled, rest⟩ := handleEvents_cons ran
      cases rest
      exact Visited.of_alike (scalar_notes turn handled)
  | .sequence mark close items =>
      rw [Node.events] at ran
      obtain ⟨opened, handled, inner⟩ := handleEvents_cons ran
      obtain ⟨-, levels, path, positions⟩ := start_notes handled
      obtain ⟨filled, between, last⟩ := handleEvents_split inner
      obtain ⟨levels', starts, grown⟩ :=
        visited_items items levels (path ▸ List.prefix_refl _) between
      exact visited_of_finish levels' starts grown positions last
  | .mapping mark close entries =>
      rw [Node.events] at ran
      obtain ⟨opened, handled, inner⟩ := handleEvents_cons ran
      obtain ⟨-, levels, path, positions⟩ := start_notes handled
      obtain ⟨filled, between, last⟩ := handleEvents_split inner
      obtain ⟨⟨keyEntry, levels'⟩, starts, grown⟩ :=
        visited_entries entries levels (path ▸ List.prefix_refl _) between
      exact visited_of_finish levels' starts grown positions last

theorem visited_items (items : List Node) {c c' : Ctx} {pointer : Bytes} {key : Bool} {i entry : Nat}
    {outer : List Level} (levels : c.levels = ⟨false, key, pointer.length, i, entry⟩ :: outer)
    (starts : pointer <+: c.path) (ran : handleEvents strtod c (itemsEvents items) = .ok c') :
    c'.levels = ⟨false, key, pointer.length, i + items.length, entry⟩ :: outer ∧
      pointer <+: c'.path ∧ c'.positions = c.positions ++ itemsInside pointer i items := by
  match items with
  | [] =>
      cases ran
      exact ⟨levels, starts, by rw [itemsInside, List.append_nil]⟩
  | node :: rest =>
      rw [itemsEvents] at ran
      obtain ⟨mid, first, later⟩ := handleEvents_split ran
      have turn : c.isKey = false := by rw [Ctx.isKey, levels]; rfl
      have here := visited_node node turn first
      simp only [noteValue, levels, Bool.false_eq_true, if_false, pathPushIndex_of_prefix starts]
        at here
      have levels' : mid.levels = ⟨false, key, pointer.length, i + 1, entry⟩ :: outer := by
        rw [here.levels]
        rfl
      have starts' : pointer <+: mid.path :=
        (prefix_pathPushIndex pointer i).trans here.starts
      obtain ⟨after, still, grown⟩ := visited_items rest levels' starts' later
      refine ⟨?_, still, ?_⟩
      · rw [after, List.length_cons, Nat.add_assoc, Nat.add_comm 1]
      · rw [grown, here.positions, itemsInside]
        simp only [List.append_assoc, List.cons_append, List.nil_append]

theorem visited_entries (entries : List (Key × Node)) {c c' : Ctx} {pointer : Bytes} {i entry : Nat}
    {outer : List Level} (levels : c.levels = ⟨true, true, pointer.length, i, entry⟩ :: outer)
    (starts : pointer <+: c.path) (ran : handleEvents strtod c (entriesEvents entries) = .ok c') :
    (∃ entry', c'.levels = ⟨true, true, pointer.length, i, entry'⟩ :: outer) ∧
      pointer <+: c'.path ∧ c'.positions = c.positions ++ entriesInside pointer entries := by
  match entries with
  | [] =>
      cases ran
      exact ⟨⟨entry, levels⟩, starts, by rw [entriesInside, List.append_nil]⟩
  | (key, node) :: rest =>
      rw [entriesEvents] at ran
      obtain ⟨keyed, handled, valued⟩ := handleEvents_cons ran
      obtain ⟨mid, first, later⟩ := handleEvents_split valued
      have turn : c.isKey = true := by rw [Ctx.isKey, levels]; rfl
      obtain ⟨keyLevels, keyPath, keyPositions⟩ := key_notes turn handled
      rw [(valueDone_notes _).1] at keyLevels
      rw [(valueDone_notes _).2.1] at keyPath
      rw [(valueDone_notes _).2.2] at keyPositions
      simp only [noteKey, levels, pathPushKey_of_prefix starts] at keyLevels keyPath keyPositions
      have turned : keyed.levels
          = ⟨true, false, pointer.length, i, c.positions.length⟩ :: outer := keyLevels
      have turn' : keyed.isKey = false := by rw [Ctx.isKey, turned]; rfl
      have here := visited_node node turn' first
      -- the value goes into the entry that the key has just added
      simp only [noteValue, turned, if_true, keyPath, keyPositions] at here
      have levels' : mid.levels
          = ⟨true, true, pointer.length, i, c.positions.length⟩ :: outer := by
        rw [here.levels]
        rfl
      have starts' : pointer <+: mid.path :=
        (prefix_pathPushKey pointer key.value).trans here.starts
      obtain ⟨after, still, grown⟩ := visited_entries rest levels' starts' later
      refine ⟨after, still, ?_⟩
      rw [grown, here.positions, entriesInside, modify_last]
      simp only [List.append_assoc, List.cons_append, List.nil_append]

end

/-- After the events of a document the table is the document's. -/
theorem positions_of_document {node : Node} {stream opens closes : Mark} {c : Ctx}
    (ran : handleEvents strtod .initial (node.document stream opens closes) = .ok c) :
    c.positions = node.table := by
  rw [Node.document, List.append_assoc] at ran
  obtain ⟨c₂, first, later⟩ := handleEvents_split ran
  obtain ⟨c₃, tree, last⟩ := handleEvents_split later
  cases first
  cases last
  have here := visited_node node rfl tree
  rw [here.positions]
  rfl

end

end Qwe.Yaml
