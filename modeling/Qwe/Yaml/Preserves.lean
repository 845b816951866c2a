import Qwe.Lua.RoundTrip
import Qwe.Yaml.Meaning

/-!
# From YAML to Lua

The events of a tree make the handler write the heads of the tree's item, and the
decoder turns the item into the tree's value.  Both go by the tree; what the
handler needs to know of its context is the shape of the open containers.
-/

set_option autoImplicit false

namespace Qwe.Yaml

open Qwe.Cbor Qwe.Lua
open Qwe.Redact (Bytes)
open Qwe.Template (bytes)

/-! ## The handler -/

/-- An event that makes a root. -/
def Event.isNode (ev : Event) : Bool :=
  match ev.kind with
  | .scalar _ => true
  | .start .. => true
  | _ => false

section
variable (strtod : Bytes → Number)

/-- The handler takes the events, writes the heads and leaves the containers in
this shape. -/
def Writes (c : Ctx) (events : List Event) (heads : List (Token Number))
    (shape : List (Bool × Bool)) : Prop :=
  ∃ c', handleEvents strtod c events = .ok c' ∧ c'.out = c.out ++ heads ∧ c'.shape = shape ∧
    c'.haveRoot = (c.haveRoot || events.any Event.isNode)

theorem handleEvents_append {c c' : Ctx} {first : List Event} (second : List Event)
    (before : handleEvents strtod c first = .ok c') :
    handleEvents strtod c (first ++ second) = handleEvents strtod c' second := by
  induction first generalizing c with
  | nil =>
      cases before
      rfl
  | cons ev first ih =>
      rw [handleEvents] at before
      rw [List.cons_append, handleEvents]
      split at before
      · contradiction
      · exact ih before

variable {strtod}

theorem Writes.nil (c : Ctx) : Writes strtod c [] [] c.shape :=
  ⟨c, rfl, (List.append_nil _).symm, rfl, (Bool.or_false _).symm⟩

theorem Writes.append {c : Ctx} {first second : List Event} {heads later : List (Token Number)}
    {shape shape' : List (Bool × Bool)} (before : Writes strtod c first heads shape)
    (after : ∀ c', c'.shape = shape → Writes strtod c' second later shape') :
    Writes strtod c (first ++ second) (heads ++ later) shape' := by
  obtain ⟨c', ran, wrote, shaped, rooted⟩ := before
  obtain ⟨c'', ran', wrote', shaped', rooted'⟩ := after c' shaped
  refine ⟨c'', ?_, ?_, shaped', ?_⟩
  · rw [handleEvents_append strtod second ran, ran']
  · rw [wrote', wrote, List.append_assoc]
  · rw [rooted', rooted, List.any_append, Bool.or_assoc]

theorem Writes.of_event {c c' : Ctx} {ev : Event} {heads : List (Token Number)}
    {shape : List (Bool × Bool)} (handled : handleEvent strtod c ev = .ok c')
    (wrote : c'.out = c.out ++ heads) (shaped : c'.shape = shape)
    (rooted : c'.haveRoot = (c.haveRoot || ev.isNode)) : Writes strtod c [ev] heads shape := by
  refine ⟨c', ?_, wrote, shaped, ?_⟩
  · rw [handleEvents, handled]
    rfl
  · rw [rooted, List.any_cons, List.any_nil, Bool.or_false]

theorem scalar_value (mark : Mark) (value : Bytes) (plain encrypted : Bool) :
    scalar strtod mark ⟨value, plain, tagOf encrypted, false⟩ false =
      .ok ((classOf value plain encrypted).item strtod value).tokens := by
  cases encrypted with
  | true => rfl
  | false =>
      cases plain with
      | false => rfl
      | true =>
          simp only [scalar, tagOf, classOf, Bool.false_eq_true, if_false, Bool.not_false,
            Bool.and_self, if_true, Bool.not_true]
          split <;> try rfl
          split <;> try rfl
          split <;> try rfl
          split <;> try rfl
          split <;> rfl

theorem checkProps_value (mark : Mark) (encrypted : Bool) :
    checkProps mark false (tagOf encrypted) true = .ok () := by
  cases encrypted <;> rfl

/-- A scalar where a value stands. -/
theorem writes_value {c : Ctx} (mark : Mark) (value : Bytes) (plain encrypted : Bool)
    (turn : keyNext c.shape = false) :
    Writes strtod c (Node.scalar mark value plain encrypted).events
      ((Node.scalar mark value plain encrypted).item strtod).tokens (doneShape c.shape) := by
  have isValue : c.isKey = false := by rw [isKey_eq, turn]
  obtain ⟨shaped, wrote⟩ := noteValue_spec c mark
  apply Writes.of_event
  · simp only [handleEvent, isValue, Bool.not_false, checkProps_value, Bool.false_eq_true,
      false_and, if_false, scalar_value]
    rfl
  · rw [(valueDone_spec _).2.1, wrote, Node.item]
  · rw [(valueDone_spec _).1]
    exact congrArg doneShape shaped
  · rw [(valueDone_spec _).2.2]
    exact (Bool.or_true _).symm

/-- A scalar where a key stands. -/
theorem writes_key {c : Ctx} (key : Key) (turn : keyNext c.shape = true)
    (noMerge : key.isMerge = false) :
    Writes strtod c [⟨.scalar ⟨key.value, key.plain, none, false⟩, key.mark⟩] [.text key.value]
      (doneShape c.shape) := by
  have isKey : c.isKey = true := by rw [isKey_eq, turn]
  have kept : ¬(key.plain = true ∧ key.value = bytes "<<") := by
    rintro ⟨plain, merge⟩
    simp [Key.isMerge, plain, merge] at noMerge
  obtain ⟨shaped, wrote⟩ := noteKey_spec c key.mark key.value
  apply Writes.of_event
  · simp only [handleEvent, isKey, checkProps, Bool.false_eq_true, if_false, true_and, if_neg kept,
      scalar, Bool.not_true, Bool.false_and, if_true]
    rfl
  · rw [(valueDone_spec _).2.1, wrote]
  · rw [(valueDone_spec _).1]
    exact congrArg doneShape shaped
  · rw [(valueDone_spec _).2.2]
    exact (Bool.or_true _).symm

theorem writes_start {c : Ctx} (mark : Mark) (isMap : Bool) (turn : keyNext c.shape = false)
    (shallow : c.shape.length < yamlMaxDepth) :
    Writes strtod c [⟨.start isMap none false, mark⟩]
      [if isMap then .map none else .array none] ((isMap, true) :: c.shape) := by
  have isValue : c.isKey = false := by rw [isKey_eq, turn]
  obtain ⟨shaped, wrote⟩ := noteValue_spec c mark
  have room : ¬c.depth ≥ yamlMaxDepth := by
    rw [depth_eq]
    omega
  have room' : ¬(noteValue c mark).depth ≥ yamlMaxDepth := by
    rw [depth_eq, shaped]
    omega
  apply Writes.of_event
  · simp only [handleEvent, checkProps, isValue, Bool.false_eq_true, if_false, if_neg room,
      openContainer, if_neg room']
    rfl
  · rw [wrote]
  · exact congrArg (List.cons (isMap, true)) shaped
  · exact (Bool.or_true _).symm

theorem writes_finish {c : Ctx} (mark : Mark) {isMap key : Bool} {outer : List (Bool × Bool)}
    (shaped : c.shape = (isMap, key) :: outer) :
    Writes strtod c [⟨.finish isMap, mark⟩] [.stop] (doneShape outer) := by
  obtain ⟨levels, haveRoot, docs, path, positions, out⟩ := c
  cases levels with
  | nil => contradiction
  | cons level rest =>
      obtain ⟨same, within⟩ := List.cons.inj shaped
      have kind : level.isMap = isMap := congrArg Prod.fst same
      apply Writes.of_event
      · simp only [handleEvent, kind, ne_eq, not_true_eq_false, if_false]
        rfl
      · rw [(valueDone_spec _).2.1]
      · rw [(valueDone_spec _).1]
        exact congrArg doneShape within
      · rw [(valueDone_spec _).2.2]
        exact (Bool.or_false _).symm

/-! ## Whole trees -/

mutual

theorem writes_node (node : Node) {c : Ctx} (turn : keyNext c.shape = false)
    (shallow : c.shape.length + node.depth ≤ yamlMaxDepth) (regular : node.regular = true) :
    Writes strtod c node.events (node.item strtod).tokens (doneShape c.shape) := by
  match node with
  | .scalar mark value plain encrypted => exact writes_value mark value plain encrypted turn
  | .sequence mark close items =>
      rw [Node.depth] at shallow
      rw [Node.regular] at regular
      apply Writes.append (writes_start mark false turn (by omega))
      intro opened shaped
      have inner : opened.shape.length + itemsDepth items ≤ yamlMaxDepth := by
        rw [shaped, List.length_cons]
        omega
      apply Writes.append (writes_items items shaped inner regular)
      intro filled shaped'
      exact writes_finish close (shaped'.trans shaped)
  | .mapping mark close entries =>
      rw [Node.depth] at shallow
      rw [Node.regular, Bool.and_eq_true] at regular
      apply Writes.append (writes_start mark true turn (by omega))
      intro opened shaped
      have inner : opened.shape.length + entriesDepth entries ≤ yamlMaxDepth := by
        rw [shaped, List.length_cons]
        omega
      apply Writes.append (writes_entries entries shaped inner regular.2)
      intro filled shaped'
      exact writes_finish close (shaped'.trans shaped)

theorem writes_items (items : List Node) {c : Ctx} {key : Bool} {outer : List (Bool × Bool)}
    (shaped : c.shape = (false, key) :: outer)
    (shallow : c.shape.length + itemsDepth items ≤ yamlMaxDepth)
    (regular : itemsRegular items = true) :
    Writes strtod c (itemsEvents items) (itemsTokens (itemsItems strtod items)) c.shape := by
  match items with
  | [] => exact Writes.nil c
  | node :: rest =>
      rw [itemsDepth] at shallow
      rw [itemsRegular, Bool.and_eq_true] at regular
      have turn : keyNext c.shape = false := by
        rw [shaped]
        rfl
      have same : doneShape c.shape = c.shape := by
        rw [shaped]
        rfl
      apply Writes.append (writes_node node turn (by omega) regular.1)
      intro c' shaped'
      rw [same] at shaped'
      rw [← shaped'] at shaped shallow ⊢
      exact writes_items rest shaped (by omega) regular.2

theorem writes_entries (entries : List (Key × Node)) {c : Ctx} {outer : List (Bool × Bool)}
    (shaped : c.shape = (true, true) :: outer)
    (shallow : c.shape.length + entriesDepth entries ≤ yamlMaxDepth)
    (regular : entriesRegular entries = true) :
    Writes strtod c (entriesEvents entries) (entriesTokens (entriesItems strtod entries)) c.shape := by
  match entries with
  | [] => exact Writes.nil c
  | (key, node) :: rest =>
      rw [entriesDepth] at shallow
      rw [entriesRegular, Bool.and_eq_true, Bool.and_eq_true] at regular
      obtain ⟨⟨noMerge, first⟩, later⟩ := regular
      have turn : keyNext c.shape = true := by
        rw [shaped]
        rfl
      -- the key turns the map to a value, the value turns it back
      have turned : doneShape c.shape = (true, false) :: outer := by
        rw [shaped]
        rfl
      have keyed : Writes strtod c [⟨.scalar ⟨key.value, key.plain, none, false⟩, key.mark⟩]
          [.text key.value] ((true, false) :: outer) :=
        turned ▸ writes_key key turn (by simpa using noMerge)
      rw [shaped, List.length_cons] at shallow
      have valued : ∀ c' : Ctx, c'.shape = (true, false) :: outer →
          Writes strtod c' node.events (node.item strtod).tokens ((true, true) :: outer) := by
        intro c' shaped'
        have done : doneShape c'.shape = (true, true) :: outer := by
          rw [shaped']
          rfl
        rw [← done]
        apply writes_node node
        · rw [shaped']
          rfl
        · rw [shaped', List.length_cons]
          omega
        · exact first
      have rest_ : ∀ c' : Ctx, c'.shape = (true, true) :: outer →
          Writes strtod c' (entriesEvents rest) (entriesTokens (entriesItems strtod rest)) c.shape := by
        intro c' shaped'
        rw [shaped, ← shaped']
        apply writes_entries rest shaped'
        · rw [shaped', List.length_cons]
          omega
        · exact later
      have both := Writes.append (Writes.append keyed valued) rest_
      rw [List.append_assoc] at both
      exact both

end

/-! ## The decoder -/

theorem convert_scalar {depth : Nat} {mark : Mark} {text : Bytes} {plain encrypted : Bool}
    (exact_ : ∀ n ∈ (Node.scalar mark text plain encrypted).integers, ¬Beyond n) :
    convert depth ((Node.scalar mark text plain encrypted).item strtod) =
      .ok ((Node.scalar mark text plain encrypted).value strtod) := by
  rw [Node.integers] at exact_
  rw [Node.item, Node.value]
  cases kind : classOf text plain encrypted with
  | integer =>
      rw [kind, if_pos rfl] at exact_
      rw [Class.item, convert]
      exact if_neg (exact_ _ (List.mem_singleton_self _))
  | secret =>
      rw [Class.item]
      unfold convert
      rfl
  | null => rfl
  | boolean b => rfl
  | float => rfl
  | text => rfl

mutual

theorem convert_node (node : Node) {depth : Nat} (shallow : depth + node.depth ≤ luaMaxDepth)
    (regular : node.regular = true) (exact_ : ∀ n ∈ node.integers, ¬Beyond n) :
    convert depth (node.item strtod) = .ok (node.value strtod) := by
  match node with
  | .scalar mark text plain encrypted => exact convert_scalar exact_
  | .sequence mark close items =>
      rw [Node.depth] at shallow
      rw [Node.regular] at regular
      rw [Node.integers] at exact_
      rw [Node.item, convert, if_neg (by omega), convert_items items (by omega) regular exact_]
      rfl
  | .mapping mark close entries =>
      rw [Node.depth] at shallow
      rw [Node.regular, Bool.and_eq_true, decide_eq_true_iff] at regular
      rw [Node.integers] at exact_
      rw [Node.item, convert, if_neg (by omega),
        convert_entries entries [] (by omega) regular.2 exact_ (by simpa using regular.1)]
      rfl

theorem convert_items (items : List Node) {depth : Nat}
    (shallow : depth + itemsDepth items ≤ luaMaxDepth) (regular : itemsRegular items = true)
    (exact_ : ∀ n ∈ itemsIntegers items, ¬Beyond n) :
    convertItems depth (itemsItems strtod items) = .ok (itemsValues strtod items) := by
  match items with
  | [] => rfl
  | node :: rest =>
      rw [itemsDepth] at shallow
      rw [itemsRegular, Bool.and_eq_true] at regular
      rw [itemsIntegers] at exact_
      rw [itemsItems, convertItems,
        convert_node node (by omega) regular.1 fun n in_ => exact_ n (List.mem_append_left _ in_)]
      rw [convert_items rest (by omega) regular.2 fun n in_ => exact_ n (List.mem_append_right _ in_)]
      rfl

/-- Keys that are new go to the end, one after the other. -/
theorem convert_entries (entries : List (Key × Node)) (fields : List (Bytes × Value)) {depth : Nat}
    (shallow : depth + entriesDepth entries ≤ luaMaxDepth) (regular : entriesRegular entries = true)
    (exact_ : ∀ n ∈ entriesIntegers entries, ¬Beyond n)
    (nodup : (fields.map (·.1) ++ entries.map (·.1.value)).Nodup) :
    convertEntries depth (entriesItems strtod entries) fields =
      .ok (fields ++ entriesValues strtod entries) := by
  match entries with
  | [] =>
      rw [entriesItems, convertEntries, entriesValues, List.append_nil]
  | (key, node) :: rest =>
      rw [entriesDepth] at shallow
      rw [entriesRegular, Bool.and_eq_true, Bool.and_eq_true] at regular
      rw [entriesIntegers] at exact_
      have new : key.value ∉ fields.map (·.1) := by
        intro old
        exact (List.nodup_append.mp nodup).2.2 _ old _ (List.mem_cons_self ..) rfl
      rw [entriesItems, convertEntries,
        convert_node node (by omega) regular.1.2 fun n in_ => exact_ n (List.mem_append_left _ in_)]
      simp only
      rw [setField_new _ new,
        convert_entries rest _ (by omega) regular.2 fun n in_ => exact_ n (List.mem_append_right _ in_)]
      · rw [entriesValues, List.append_assoc, List.singleton_append]
      · simpa using nodup

end

/-! An integer out of range fails, wherever it stands. -/

mutual

theorem convert_node_beyond (node : Node) {depth : Nat} {n : Int} (in_ : n ∈ node.integers)
    (beyond : Beyond n) : ∃ err, convert depth (node.item strtod) = .error err := by
  match node with
  | .scalar mark text plain encrypted =>
      rw [Node.integers] at in_
      split at in_
      · rename_i kind
        obtain rfl := List.mem_singleton.mp in_
        rw [Node.item, kind, Class.item, convert]
        exact ⟨_, if_pos beyond⟩
      · contradiction
  | .sequence mark close items =>
      rw [Node.integers] at in_
      rw [Node.item, convert]
      split
      · exact ⟨_, rfl⟩
      · obtain ⟨err, failed⟩ := convert_items_beyond items in_ beyond
        exact ⟨err, by rw [failed]; rfl⟩
  | .mapping mark close entries =>
      rw [Node.integers] at in_
      rw [Node.item, convert]
      split
      · exact ⟨_, rfl⟩
      · obtain ⟨err, failed⟩ := convert_entries_beyond entries [] in_ beyond
        exact ⟨err, by rw [failed]; rfl⟩

theorem convert_items_beyond (items : List Node) {depth : Nat} {n : Int}
    (in_ : n ∈ itemsIntegers items) (beyond : Beyond n) :
    ∃ err, convertItems depth (itemsItems strtod items) = .error err := by
  match items with
  | [] => contradiction
  | node :: rest =>
      rw [itemsIntegers] at in_
      rw [itemsItems, convertItems]
      split
      · exact ⟨_, rfl⟩
      · rename_i v converted
        rcases List.mem_append.mp in_ with here | later
        · obtain ⟨err, failed⟩ := convert_node_beyond node here beyond
          rw [failed] at converted
          contradiction
        · obtain ⟨err, failed⟩ := convert_items_beyond rest later beyond
          exact ⟨err, by rw [failed]; rfl⟩

theorem convert_entries_beyond (entries : List (Key × Node)) (fields : List (Bytes × Value))
    {depth : Nat} {n : Int} (in_ : n ∈ entriesIntegers entries) (beyond : Beyond n) :
    ∃ err, convertEntries depth (entriesItems strtod entries) fields = .error err := by
  match entries with
  | [] => contradiction
  | (key, node) :: rest =>
      rw [entriesIntegers] at in_
      rw [entriesItems, convertEntries]
      split
      · exact ⟨_, rfl⟩
      · rename_i v converted
        rcases List.mem_append.mp in_ with here | later
        · obtain ⟨err, failed⟩ := convert_node_beyond node here beyond
          rw [failed] at converted
          contradiction
        · exact convert_entries_beyond rest _ later beyond

end

/-! ## Documents -/

variable (strtod)

/-- The encoder takes every document whose tree is regular and not too deep. -/
theorem encode_document {node : Node} (regular : node.regular = true)
    (shallow : node.depth ≤ yamlMaxDepth) (stream opens closes : Mark) :
    encode strtod (node.document stream opens closes) = .ok (node.item strtod).tokens := by
  have opened : handleEvents strtod .initial [⟨.streamStart, stream⟩, ⟨.documentStart, opens⟩] =
      .ok { Ctx.initial with docs := 1 } := rfl
  have written : Writes strtod { Ctx.initial with docs := 1 } node.events (node.item strtod).tokens [] :=
    writes_node node rfl (by simpa [Ctx.shape, Ctx.initial] using shallow) regular
  obtain ⟨c, ran, wrote, _, rooted⟩ := written
  have started : node.events.any Event.isNode = true := by
    cases node <;> rfl
  have ended : handleEvents strtod .initial (node.document stream opens closes) = .ok c := by
    rw [Node.document, List.append_assoc, handleEvents_append strtod _ opened,
      handleEvents_append strtod _ ran]
    rfl
  rw [encode, ended]
  simp only
  rw [rooted, started, Bool.or_true, if_pos rfl, wrote]
  rfl

/-- Encoding a document and decoding it gives the tree's value, or an error if a
plain integer is beyond 2^53, and no other. -/
theorem yaml_keeps_meaning (node : Node) (regular : node.regular = true)
    (shallow : node.depth ≤ yamlMaxDepth) (stream opens closes : Mark) :
    ∃ buf, encode strtod (node.document stream opens closes) = .ok buf ∧
      ((∀ n ∈ node.integers, ¬Beyond n) → cborToLua buf = .ok (node.value strtod)) ∧
      ((∃ err, cborToLua buf = .error err) ↔ ∃ n ∈ node.integers, Beyond n) := by
  have decodes : (∀ n ∈ node.integers, ¬Beyond n) →
      cborToLua (node.item strtod).tokens = .ok (node.value strtod) := by
    intro exact_
    rw [cborToLua_tokens]
    apply convert_node node
    · rw [Nat.zero_add]
      exact shallow
    · exact regular
    · exact exact_
  refine ⟨_, encode_document strtod regular shallow stream opens closes, decodes, ?_, ?_⟩
  · rintro ⟨err, failed⟩
    by_contra none_
    push Not at none_
    rw [decodes none_] at failed
    contradiction
  · rintro ⟨n, in_, beyond⟩
    rw [cborToLua_tokens]
    exact convert_node_beyond node in_ beyond

end

/-- `{port: 8080, "8080": [~, .5, <<], key: !encrypted v1}` -/
def sampleNode : Node :=
  let at_ (column : Nat) : Mark := ⟨0, column⟩
  .mapping (at_ 0) (at_ 57)
    [(⟨at_ 1, bytes "port", true⟩, .scalar (at_ 7) (bytes "8080") true false),
     (⟨at_ 13, bytes "8080", false⟩, .sequence (at_ 21) (at_ 32)
       [.scalar (at_ 22) (bytes "~") true false, .scalar (at_ 25) (bytes ".5") true false,
        .scalar (at_ 29) (bytes "<<") true false]),
     (⟨at_ 35, bytes "key", true⟩, .scalar (at_ 40) (bytes "v1") true true)]

theorem yaml_keeps_meaning_sample :
    ∃ buf, encode (fun _ => .finite (1 / 2)) (sampleNode.document ⟨0, 0⟩ ⟨0, 0⟩ ⟨0, 58⟩) = .ok buf ∧
      cborToLua buf = .ok (.map
        [(bytes "port", .number (.finite 8080)),
         (bytes "8080", .array [null, .number (.finite (1 / 2)), .string (bytes "<<")]),
         (bytes "key", .secret (bytes "v1"))]) := by
  obtain ⟨buf, encoded, decodes, _⟩ := yaml_keeps_meaning (fun _ => .finite (1 / 2)) sampleNode
    (by decide) (by decide) ⟨0, 0⟩ ⟨0, 0⟩ ⟨0, 58⟩
  exact ⟨buf, encoded, decodes (by decide)⟩

end Qwe.Yaml
