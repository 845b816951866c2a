import Qwe.Yaml.Preserves

/-!
# What the transcoder refuses

Streams of any documents, with anchors, aliases, tags, merge keys, keys that are no scalars and
any nesting.  `encode` fails with the first thing on the page that it objects to, and takes the
rest.
-/

set_option autoImplicit false

namespace Qwe.Yaml

open Qwe.Cbor Qwe.Lua
open Qwe.Redact (Bytes)
open Qwe.Template (bytes)

/-! ## Trees with all that YAML has -/

inductive RawNode where
  | alias (mark : Mark)
  | scalar (mark : Mark) (data : ScalarData)
  | sequence (mark close : Mark) (tag : Option Bytes) (anchor : Bool) (items : List RawNode)
  | mapping (mark close : Mark) (tag : Option Bytes) (anchor : Bool) (entries : List (RawNode × RawNode))

mutual

def RawNode.events : RawNode → List Event
  | .alias mark => [⟨.alias, mark⟩]
  | .scalar mark data => [⟨.scalar data, mark⟩]
  | .sequence mark close tag anchor items =>
      ⟨.start false tag anchor, mark⟩ :: (rawItemsEvents items ++ [⟨.finish false, close⟩])
  | .mapping mark close tag anchor entries =>
      ⟨.start true tag anchor, mark⟩ :: (rawEntriesEvents entries ++ [⟨.finish true, close⟩])

def rawItemsEvents : List RawNode → List Event
  | [] => []
  | node :: rest => node.events ++ rawItemsEvents rest

def rawEntriesEvents : List (RawNode × RawNode) → List Event
  | [] => []
  | (key, node) :: rest => key.events ++ (node.events ++ rawEntriesEvents rest)

end

structure Document where
  opens : Mark
  closes : Mark
  node : RawNode

def Document.events (doc : Document) : List Event :=
  ⟨.documentStart, doc.opens⟩ :: (doc.node.events ++ [⟨.documentEnd, doc.closes⟩])

/-- A stream of documents, up to its end. -/
def streamEvents (stream : Mark) (docs : List Document) : List Event :=
  ⟨.streamStart, stream⟩ :: docs.flatMap Document.events

/-! ## The first objection -/

def objectionAt (mark : Mark) (message : String) : Failure := ⟨mark, bytes message⟩

/-- Anchors, and tags other than that of a secret on a scalar value. -/
def propsObjection (mark : Mark) (anchor : Bool) (tag : Option Bytes) (tagOk : Bool) : Option Failure :=
  if anchor then some (objectionAt mark "anchors are not supported")
  else tag.bind fun tag =>
    if tagOk ∧ cString tag = encryptedTag then none
    else some ⟨mark, bytes "unknown tag " ++ (cString tag).take 80⟩

/-- A map or a sequence at a depth. -/
def startObjection (depth : Nat) (asKey : Bool) (mark : Mark) (anchor : Bool) (tag : Option Bytes) :
    Option Failure :=
  (propsObjection mark anchor tag false).or
    (if asKey then some (objectionAt mark "map keys must be scalars")
    else if depth ≥ yamlMaxDepth then some (objectionAt mark "nesting too deep") else none)

def scalarObjection (asKey : Bool) (mark : Mark) (data : ScalarData) : Option Failure :=
  (propsObjection mark data.anchor data.tag (!asKey)).or
    (if asKey ∧ data.plain ∧ data.value = bytes "<<" then
      some (objectionAt mark "merge keys are not supported") else none)

mutual

/-- The first thing in a tree that is not supported, in the order of the page. -/
def RawNode.objection (depth : Nat) (asKey : Bool) : RawNode → Option Failure
  | .alias mark => some (objectionAt mark "aliases are not supported")
  | .scalar mark data => scalarObjection asKey mark data
  | .sequence mark _ tag anchor items =>
      (startObjection depth asKey mark anchor tag).or (rawItemsObjection (depth + 1) items)
  | .mapping mark _ tag anchor entries =>
      (startObjection depth asKey mark anchor tag).or (rawEntriesObjection (depth + 1) entries)

def rawItemsObjection (depth : Nat) : List RawNode → Option Failure
  | [] => none
  | node :: rest => (node.objection depth false).or (rawItemsObjection depth rest)

def rawEntriesObjection (depth : Nat) : List (RawNode × RawNode) → Option Failure
  | [] => none
  | (key, node) :: rest =>
      (key.objection depth true).or ((node.objection depth false).or (rawEntriesObjection depth rest))

end

/-! ## The item of a tree without objections -/

section
variable (strtod : Bytes → Number)

def scalarItem (asKey : Bool) (data : ScalarData) : Item Number :=
  (classOf data.value (data.plain && !asKey) data.tag.isSome).item strtod data.value

mutual

def RawNode.item (asKey : Bool) : RawNode → Item Number
  | .alias _ => .null
  | .scalar _ data => scalarItem strtod asKey data
  | .sequence _ _ _ _ items => .array false (rawItemsItems items)
  | .mapping _ _ _ _ entries => .map false (rawEntriesItems entries)

def rawItemsItems : List RawNode → List (Item Number)
  | [] => []
  | node :: rest => node.item false :: rawItemsItems rest

def rawEntriesItems : List (RawNode × RawNode) → List (Item Number × Item Number)
  | [] => []
  | (key, node) :: rest => (key.item true, node.item false) :: rawEntriesItems rest

end

/-! ## The handler -/

/-- The handler fails with the objection, or it takes the events and writes the heads. -/
def Reads (c : Ctx) (events : List Event) (objection : Option Failure) (heads : List (Token Number))
    (shape : List (Bool × Bool)) : Prop :=
  match objection with
  | some failure => handleEvents strtod c events = .error failure
  | none => Writes strtod c events heads shape

variable {strtod} {c : Ctx} {mark : Mark}

theorem handleEvents_error {first : List Event} {failure : Failure} (second : List Event)
    (failed : handleEvents strtod c first = .error failure) :
    handleEvents strtod c (first ++ second) = .error failure := by
  induction first generalizing c with
  | nil => contradiction
  | cons ev first inductionHypothesis =>
      rw [handleEvents] at failed
      rw [List.cons_append, handleEvents]
      split at failed
      · exact failed
      · exact inductionHypothesis failed

/-- One part of the events after another. -/
theorem Reads.append {first second : List Event} {here later : Option Failure}
    {heads heads' : List (Token Number)} {shape shape' : List (Bool × Bool)}
    (before : Reads strtod c first here heads shape)
    (after : ∀ c', c'.shape = shape → Reads strtod c' second later heads' shape') :
    Reads strtod c (first ++ second) (here.or later) (heads ++ heads') shape' := by
  cases here with
  | some failure => exact handleEvents_error second before
  | none =>
      rw [Option.none_or]
      cases later with
      | none => exact Writes.append before after
      | some failure =>
          obtain ⟨c', ran, -, shaped, -⟩ := before
          have failed : handleEvents strtod c' second = .error failure := after c' shaped
          change handleEvents strtod c (first ++ second) = .error failure
          rw [handleEvents_append strtod second ran, failed]

theorem reads_of_error {ev : Event} {failure : Failure} {heads : List (Token Number)}
    {shape : List (Bool × Bool)} (failed : handleEvent strtod c ev = .error failure) :
    Reads strtod c [ev] (some failure) heads shape := by
  change handleEvents strtod c [ev] = .error failure
  rw [handleEvents, failed]

theorem checkProps_eq (mark : Mark) (anchor : Bool) (tag : Option Bytes) (tagOk : Bool) :
    checkProps mark anchor tag tagOk =
      match propsObjection mark anchor tag tagOk with
      | some failure => .error failure
      | none => .ok () := by
  unfold checkProps propsObjection
  cases anchor with
  | true => rfl
  | false =>
      cases tag with
      | none => rfl
      | some tag =>
          simp only [Bool.false_eq_true, if_false, Option.bind_some]
          split <;> rfl

/-- What a tag may be where there is no objection. -/
theorem tag_of_fine {anchor : Bool} {tag : Option Bytes} {tagOk : Bool}
    (fine : propsObjection mark anchor tag tagOk = none) :
    ∀ t ∈ tag, tagOk = true ∧ cString t = encryptedTag := by
  intro t here
  obtain rfl : tag = some t := here
  rw [propsObjection] at fine
  split at fine
  · contradiction
  · rw [Option.bind_some] at fine
    split at fine
    · rename_i allowed
      exact allowed
    · contradiction

/-- `scalar` writes the item of the scalar. -/
theorem scalar_item {data : ScalarData} {asKey : Bool}
    (tagged : ∀ t ∈ data.tag, (!asKey) = true ∧ cString t = encryptedTag) :
    scalar strtod mark data asKey = .ok (scalarItem strtod asKey data).tokens := by
  rw [scalarItem]
  unfold scalar
  cases tag : data.tag with
  | some t =>
      obtain ⟨isValue, encrypted⟩ := tagged t tag
      have fine : ¬((asKey = true) ∨ cString t ≠ encryptedTag) := by
        rintro (key | other)
        · rw [key] at isValue
          contradiction
        · exact other encrypted
      dsimp only
      rw [if_neg fine]
      rfl
  | none =>
      have value : scalar strtod mark ⟨data.value, data.plain && !asKey, none, false⟩ false = _ :=
        scalar_value mark data.value (data.plain && !asKey) false
      rw [Option.isSome_none, ← value]
      unfold scalar
      cases asKey <;> cases data.plain <;> rfl

theorem handleEvent_scalar {asKey : Bool} (data : ScalarData) (isKey : c.isKey = asKey) :
    handleEvent strtod c ⟨.scalar data, mark⟩ =
      match checkProps mark data.anchor data.tag (!asKey) with
      | .error e => .error e
      | .ok () =>
          if asKey ∧ data.plain ∧ data.value = bytes "<<" then
            fail mark "merge keys are not supported"
          else
            let noted := if asKey then noteKey c mark data.value else noteValue c mark
            match scalar strtod mark data asKey with
            | .error e => .error e
            | .ok heads => .ok (valueDone { noted with out := noted.out ++ heads, haveRoot := true }) := by
  subst isKey
  rfl

theorem reads_scalar {asKey : Bool} (data : ScalarData) (turn : keyNext c.shape = asKey) :
    Reads strtod c [⟨.scalar data, mark⟩] (scalarObjection asKey mark data)
      (scalarItem strtod asKey data).tokens (doneShape c.shape) := by
  have isKey : c.isKey = asKey := by rw [isKey_eq, turn]
  have checked := checkProps_eq mark data.anchor data.tag (!asKey)
  have handled : handleEvent strtod c ⟨.scalar data, mark⟩ = _ := handleEvent_scalar data isKey
  rw [scalarObjection]
  cases props : propsObjection mark data.anchor data.tag (!asKey) with
  | some failure =>
      rw [checked, props] at handled
      exact reads_of_error handled
  | none =>
      rw [checked, props] at handled
      rw [Option.none_or]
      by_cases merge : asKey = true ∧ data.plain = true ∧ data.value = bytes "<<"
      · rw [if_pos merge]
        dsimp only at handled
        rw [if_pos merge] at handled
        exact reads_of_error handled
      · rw [if_neg merge]
        dsimp only at handled
        rw [if_neg merge, scalar_item (tag_of_fine props)] at handled
        have noted : (if asKey = true then noteKey c mark data.value else noteValue c mark).shape = c.shape ∧
            (if asKey = true then noteKey c mark data.value else noteValue c mark).out = c.out := by
          split
          · exact noteKey_spec c mark data.value
          · exact noteValue_spec c mark
        refine Writes.of_event handled ?_ ?_ ?_
        · rw [(valueDone_spec _).2.1, noted.2]
        · rw [(valueDone_spec _).1]
          exact congrArg doneShape noted.1
        · rw [(valueDone_spec _).2.2]
          exact (Bool.or_true _).symm

theorem reads_start {asKey isMap : Bool} {tag : Option Bytes} {anchor : Bool}
    (turn : keyNext c.shape = asKey) :
    Reads strtod c [⟨.start isMap tag anchor, mark⟩]
      (startObjection c.shape.length asKey mark anchor tag)
      [if isMap then .map none else .array none] ((isMap, true) :: c.shape) := by
  have isKey : c.isKey = asKey := by rw [isKey_eq, turn]
  have checked := checkProps_eq mark anchor tag false
  rw [startObjection]
  cases props : propsObjection mark anchor tag false with
  | some failure =>
      refine reads_of_error ?_
      rw [props] at checked
      unfold handleEvent
      dsimp only
      rw [checked]
  | none =>
      rw [props] at checked
      rw [Option.none_or]
      obtain rfl : tag = none := by
        cases tag with
        | none => rfl
        | some t => exact absurd (tag_of_fine props t rfl).1 Bool.false_ne_true
      obtain rfl : anchor = false := by
        cases anchor with
        | false => rfl
        | true => contradiction
      cases asKey with
      | true =>
          rw [if_pos rfl]
          refine reads_of_error ?_
          unfold handleEvent
          dsimp only
          rw [checked]
          dsimp only
          rw [if_pos isKey]
          rfl
      | false =>
          rw [if_neg Bool.false_ne_true]
          by_cases deep : c.shape.length ≥ yamlMaxDepth
          · rw [if_pos deep]
            refine reads_of_error ?_
            unfold handleEvent
            dsimp only
            rw [checked]
            dsimp only
            rw [isKey, if_neg Bool.false_ne_true, if_pos (depth_eq c ▸ deep)]
            rfl
          · rw [if_neg deep]
            exact writes_start mark isMap turn (by omega)

/-- What ends a container is never objected to. -/
theorem reads_finish (mark : Mark) {isMap key : Bool} {outer : List (Bool × Bool)}
    (shaped : c.shape = (isMap, key) :: outer) :
    Reads strtod c [⟨.finish isMap, mark⟩] none [.stop] (doneShape outer) := writes_finish mark shaped

/-! ## Whole trees -/

mutual

theorem reads_node (node : RawNode) {c : Ctx} {asKey : Bool} (turn : keyNext c.shape = asKey) :
    Reads strtod c node.events (node.objection c.shape.length asKey) (node.item strtod asKey).tokens
      (doneShape c.shape) := by
  match node with
  | .alias mark => exact reads_of_error rfl
  | .scalar mark data => exact reads_scalar data turn
  | .sequence mark close tag anchor items =>
      have opened : Reads strtod c [⟨.start false tag anchor, mark⟩]
          (startObjection c.shape.length asKey mark anchor tag) [.array none] ((false, true) :: c.shape) :=
        reads_start turn
      refine opened.append ?_
      intro c' shaped
      have filled := reads_items items shaped
      rw [shaped, List.length_cons] at filled
      have closed := filled.append fun _ shaped' => reads_finish close shaped'
      rw [Option.or_none] at closed
      exact closed
  | .mapping mark close tag anchor entries =>
      have opened : Reads strtod c [⟨.start true tag anchor, mark⟩]
          (startObjection c.shape.length asKey mark anchor tag) [.map none] ((true, true) :: c.shape) :=
        reads_start turn
      refine opened.append ?_
      intro c' shaped
      have filled := reads_entries entries shaped
      rw [shaped, List.length_cons] at filled
      have closed := filled.append fun _ shaped' => reads_finish close shaped'
      rw [Option.or_none] at closed
      exact closed

theorem reads_items (items : List RawNode) {c : Ctx} {key : Bool} {outer : List (Bool × Bool)}
    (shaped : c.shape = (false, key) :: outer) :
    Reads strtod c (rawItemsEvents items) (rawItemsObjection c.shape.length items)
      (itemsTokens (rawItemsItems strtod items)) c.shape := by
  match items with
  | [] => exact Writes.nil c
  | node :: rest =>
      have turn : keyNext c.shape = false := by
        rw [shaped]
        rfl
      have same : doneShape c.shape = c.shape := by
        rw [shaped]
        rfl
      refine (reads_node node turn).append ?_
      intro c' shaped'
      rw [same] at shaped'
      rw [← shaped'] at shaped ⊢
      exact reads_items rest shaped

theorem reads_entries (entries : List (RawNode × RawNode)) {c : Ctx} {outer : List (Bool × Bool)}
    (shaped : c.shape = (true, true) :: outer) :
    Reads strtod c (rawEntriesEvents entries) (rawEntriesObjection c.shape.length entries)
      (entriesTokens (rawEntriesItems strtod entries)) c.shape := by
  match entries with
  | [] => exact Writes.nil c
  | (key, node) :: rest =>
      have turn : keyNext c.shape = true := by
        rw [shaped]
        rfl
      -- the key turns the map to a value, the value turns it back
      have keyed := reads_node key turn
      have turned : doneShape c.shape = (true, false) :: outer := by
        rw [shaped]
        rfl
      rw [turned] at keyed
      rw [rawEntriesEvents, rawEntriesObjection, rawEntriesItems, entriesTokens, List.append_assoc]
      refine keyed.append ?_
      intro c' shaped'
      have valued := reads_node node (show keyNext c'.shape = false by
        rw [shaped']
        rfl)
      have length : c'.shape.length = c.shape.length := by
        rw [shaped', shaped, List.length_cons, List.length_cons]
      have done : doneShape c'.shape = c.shape := by
        rw [shaped', shaped]
        rfl
      rw [length, done] at valued
      refine valued.append ?_
      intro c'' shaped''
      rw [← shaped''] at shaped ⊢
      exact reads_entries rest shaped

end

/-! ## The decoder on what is taken -/

/-- What `convert` says of an integer that is too large. -/
def outOfRange : String := "integer out of range (beyond 2^53)"

theorem convert_class {depth : Nat} {text : Bytes} {kind : Class} {err : String}
    (failed : convert depth (kind.item strtod text) = .error err) : err = outOfRange := by
  cases kind with
  | integer =>
      rw [Class.item, convert] at failed
      split at failed
      · cases failed
        rfl
      · contradiction
  | secret =>
      rw [Class.item, convert, if_neg (not_not_intro rfl)] at failed
      contradiction
  | _ => contradiction

variable (strtod) in
/-- A key without objections is a text. -/
theorem key_item {key : RawNode} {depth : Nat} (fine : key.objection depth true = none) :
    ∃ s, key.item strtod true = .text s := by
  match key, fine with
  | .scalar mark data, fine =>
      have props := (Option.or_eq_none_iff.mp fine).1
      have untagged : data.tag = none := by
        cases tag : data.tag with
        | none => rfl
        | some t => exact absurd (tag_of_fine props t tag).1 Bool.false_ne_true
      refine ⟨data.value, ?_⟩
      rw [RawNode.item, scalarItem, untagged, Bool.not_true, Bool.and_false]
      rfl
  | .sequence mark close tag anchor items, fine =>
      have start := (Option.or_eq_none_iff.mp fine).1
      have never := (Option.or_eq_none_iff.mp start).2
      rw [if_pos rfl] at never
      contradiction
  | .mapping mark close tag anchor entries, fine =>
      have start := (Option.or_eq_none_iff.mp fine).1
      have never := (Option.or_eq_none_iff.mp start).2
      rw [if_pos rfl] at never
      contradiction

theorem shallow_of_start {depth : Nat} {mark : Mark} {tag : Option Bytes} {anchor asKey : Bool}
    (fine : startObjection depth asKey mark anchor tag = none) : ¬depth ≥ luaMaxDepth := by
  have never := (Option.or_eq_none_iff.mp fine).2
  intro deep
  split at never
  · contradiction
  · have deep : depth ≥ yamlMaxDepth := deep
    rw [if_pos deep] at never
    contradiction

mutual

theorem convert_raw (node : RawNode) {depth : Nat} {asKey : Bool} {err : String}
    (fine : node.objection depth asKey = none)
    (failed : convert depth (node.item strtod asKey) = .error err) : err = outOfRange := by
  match node with
  | .alias mark => contradiction
  | .scalar mark data => exact convert_class failed
  | .sequence mark close tag anchor items =>
      obtain ⟨start, inside⟩ := Option.or_eq_none_iff.mp fine
      rw [RawNode.item, convert, if_neg (shallow_of_start start)] at failed
      cases result : convertItems (depth + 1) (rawItemsItems strtod items) with
      | error msg =>
          rw [result] at failed
          cases failed
          exact convert_rawItems items inside result
      | ok values =>
          rw [result] at failed
          contradiction
  | .mapping mark close tag anchor entries =>
      obtain ⟨start, inside⟩ := Option.or_eq_none_iff.mp fine
      rw [RawNode.item, convert, if_neg (shallow_of_start start)] at failed
      cases result : convertEntries (depth + 1) (rawEntriesItems strtod entries) [] with
      | error msg =>
          rw [result] at failed
          cases failed
          exact convert_rawEntries entries inside result
      | ok fields =>
          rw [result] at failed
          contradiction

theorem convert_rawItems (items : List RawNode) {depth : Nat} {err : String}
    (fine : rawItemsObjection depth items = none)
    (failed : convertItems depth (rawItemsItems strtod items) = .error err) : err = outOfRange := by
  match items with
  | [] => contradiction
  | node :: rest =>
      obtain ⟨here, later⟩ := Option.or_eq_none_iff.mp fine
      rw [rawItemsItems, convertItems] at failed
      split at failed
      · rename_i msg first
        cases failed
        exact convert_raw node here first
      · cases result : convertItems depth (rawItemsItems strtod rest) with
        | error msg =>
            rw [result] at failed
            cases failed
            exact convert_rawItems rest later result
        | ok values =>
            rw [result] at failed
            contradiction

theorem convert_rawEntries (entries : List (RawNode × RawNode)) {depth : Nat} {err : String}
    {fields : List (Bytes × Value)} (fine : rawEntriesObjection depth entries = none)
    (failed : convertEntries depth (rawEntriesItems strtod entries) fields = .error err) :
    err = outOfRange := by
  match entries with
  | [] => contradiction
  | (key, node) :: rest =>
      obtain ⟨keyFine, valueFine⟩ := Option.or_eq_none_iff.mp fine
      obtain ⟨here, later⟩ := Option.or_eq_none_iff.mp valueFine
      obtain ⟨s, named⟩ := key_item strtod keyFine
      rw [rawEntriesItems, named, convertEntries] at failed
      split at failed
      · rename_i msg first
        cases failed
        exact convert_raw node here first
      · exact convert_rawEntries rest later failed

end

/-! ## Streams -/

theorem valueDone_docs (c : Ctx) : (valueDone c).docs = c.docs := by
  obtain ⟨levels, haveRoot, docs, path, positions, out⟩ := c
  cases levels with
  | nil => rfl
  | cons level outer =>
      obtain ⟨isMap, expectKey, containerLen, nextIndex, keyEntry⟩ := level
      cases isMap <;> rfl

theorem noteValue_docs (c : Ctx) (mark : Mark) : (noteValue c mark).docs = c.docs := by
  obtain ⟨levels, haveRoot, docs, path, positions, out⟩ := c
  cases levels with
  | nil => rfl
  | cons level outer =>
      obtain ⟨isMap, expectKey, containerLen, nextIndex, keyEntry⟩ := level
      cases isMap <;> rfl

theorem noteKey_docs (c : Ctx) (mark : Mark) (key : Bytes) : (noteKey c mark key).docs = c.docs := by
  obtain ⟨levels, haveRoot, docs, path, positions, out⟩ := c
  cases levels <;> rfl

theorem docs_of_event {c c' : Ctx} {ev : Event} (other : ev.kind ≠ .documentStart)
    (handled : handleEvent strtod c ev = .ok c') : c'.docs = c.docs := by
  unfold handleEvent at handled
  split at handled
  case h_1 =>
    cases handled
    rfl
  case h_2 =>
    cases handled
    rfl
  case h_3 same => exact absurd same other
  case h_4 => contradiction
  case h_5 data same =>
    split at handled
    · contradiction
    split at handled
    · contradiction
    dsimp only at handled
    split at handled
    · contradiction
    cases handled
    rw [valueDone_docs]
    dsimp only
    split
    · exact noteKey_docs c ev.startMark data.value
    · exact noteValue_docs c ev.startMark
  case h_6 isMap tag anchor same =>
    split at handled
    · contradiction
    split at handled
    · contradiction
    split at handled
    · contradiction
    split at handled
    · contradiction
    rename_i opened
    unfold openContainer at opened
    split at opened
    · contradiction
    cases opened
    cases handled
    exact noteValue_docs c ev.startMark
  case h_7 isMap same =>
    split at handled
    · contradiction
    split at handled
    · contradiction
    cases handled
    exact valueDone_docs _

theorem docs_of_events {c c' : Ctx} {events : List Event}
    (others : ∀ ev ∈ events, ev.kind ≠ .documentStart)
    (handled : handleEvents strtod c events = .ok c') : c'.docs = c.docs := by
  induction events generalizing c with
  | nil =>
      cases handled
      rfl
  | cons ev rest inductionHypothesis =>
      rw [handleEvents] at handled
      split at handled
      · contradiction
      rename_i next first
      have later := inductionHypothesis (fun ev' member => others ev' (List.mem_cons_of_mem ev member)) handled
      rw [later, docs_of_event (others ev List.mem_cons_self) first]

mutual

/-- A tree opens no document. -/
theorem node_events (node : RawNode) : ∀ ev ∈ node.events, ev.kind ≠ .documentStart := by
  match node with
  | .alias mark => simp [RawNode.events]
  | .scalar mark data => simp [RawNode.events]
  | .sequence mark close tag anchor items =>
      have inside := items_events items
      simp only [RawNode.events, List.mem_cons, List.mem_append, List.not_mem_nil, or_false]
      rintro ev (rfl | here | rfl)
      · nofun
      · exact inside ev here
      · nofun
  | .mapping mark close tag anchor entries =>
      have inside := entries_events entries
      simp only [RawNode.events, List.mem_cons, List.mem_append, List.not_mem_nil, or_false]
      rintro ev (rfl | here | rfl)
      · nofun
      · exact inside ev here
      · nofun

theorem items_events (items : List RawNode) : ∀ ev ∈ rawItemsEvents items, ev.kind ≠ .documentStart := by
  match items with
  | [] => nofun
  | node :: rest =>
      intro ev member
      rcases List.mem_append.mp member with here | later
      · exact node_events node ev here
      · exact items_events rest ev later

theorem entries_events (entries : List (RawNode × RawNode)) :
    ∀ ev ∈ rawEntriesEvents entries, ev.kind ≠ .documentStart := by
  match entries with
  | [] => nofun
  | (key, node) :: rest =>
      intro ev member
      rcases List.mem_append.mp member with here | member
      · exact node_events key ev here
      · rcases List.mem_append.mp member with here | later
        · exact node_events node ev here
        · exact entries_events rest ev later

end

theorem isNode_of_fine {node : RawNode} {depth : Nat} (fine : node.objection depth false = none) :
    node.events.any Event.isNode = true := by
  match node, fine with
  | .scalar mark data, _ => rfl
  | .sequence mark close tag anchor items, _ => rfl
  | .mapping mark close tag anchor entries, _ => rfl

variable (strtod) in
/-- What `encode` is to make of a stream: the first objection in reading order, or the heads of
the one tree. -/
def outcome : List Document → Except Failure (List (Token Number))
  | [] => .error (objectionAt ⟨0, 0⟩ "empty document")
  | doc :: rest =>
      match doc.node.objection 0 false with
      | some failure => .error failure
      | none =>
          match rest.head? with
          | some next => .error (objectionAt next.opens "more than one YAML document")
          | none => .ok (doc.node.item strtod false).tokens

variable (strtod) in
theorem encode_stream (stream : Mark) (docs : List Document) :
    encode strtod (streamEvents stream docs) = outcome strtod docs := by
  cases docs with
  | nil => rfl
  | cons doc rest =>
      have opened : handleEvents strtod .initial [⟨.streamStart, stream⟩, ⟨.documentStart, doc.opens⟩] =
          .ok { Ctx.initial with docs := 1 } := rfl
      have parts : streamEvents stream (doc :: rest) =
          [⟨.streamStart, stream⟩, ⟨.documentStart, doc.opens⟩] ++
            (doc.node.events ++ (⟨.documentEnd, doc.closes⟩ :: rest.flatMap Document.events)) := by
        rw [streamEvents, List.flatMap_cons, Document.events, List.cons_append, List.append_assoc]
        rfl
      have read : Reads strtod { Ctx.initial with docs := 1 } doc.node.events (doc.node.objection 0 false)
          (doc.node.item strtod false).tokens [] := reads_node doc.node rfl
      rw [encode, parts, handleEvents_append strtod _ opened]
      cases objection : doc.node.objection 0 false with
      | some failure =>
          rw [objection] at read
          have refused : handleEvents strtod _ doc.node.events = .error failure := read
          rw [handleEvents_error _ refused, outcome, objection]
      | none =>
          rw [objection] at read
          obtain ⟨c, ran, wrote, -, rooted⟩ := read
          have one : c.docs = 1 := docs_of_events (node_events doc.node) ran
          rw [handleEvents_append strtod _ ran, outcome, objection]
          cases rest with
          | nil =>
              rw [isNode_of_fine objection, Bool.or_true] at rooted
              have ended : handleEvents strtod c (⟨.documentEnd, doc.closes⟩ ::
                  ([] : List Document).flatMap Document.events) = .ok c := rfl
              rw [ended]
              dsimp only
              rw [if_pos rooted, wrote]
              rfl
          | cons next later =>
              have refused : handleEvent strtod c ⟨.documentStart, next.opens⟩ =
                  .error (objectionAt next.opens "more than one YAML document") := by
                unfold handleEvent
                dsimp only
                rw [one, if_pos (by decide)]
                rfl
              have ended : handleEvents strtod c (⟨.documentEnd, doc.closes⟩ ::
                  (next :: later).flatMap Document.events) =
                    .error (objectionAt next.opens "more than one YAML document") := by
                have skipped : handleEvent strtod c ⟨.documentEnd, doc.closes⟩ = .ok c := rfl
                rw [handleEvents, skipped, List.flatMap_cons, Document.events]
                dsimp only
                rw [List.cons_append, handleEvents, refused]
              rw [ended]
              rfl

variable (strtod) in
/-- A stream is refused with the first thing on the page that is not supported, and taken without
one; what is taken is one item, which the decoder refuses for an integer out of range only. -/
theorem encode_refuses_first (stream : Mark) (docs : List Document) :
    encode strtod (streamEvents stream docs) = outcome strtod docs ∧
      ∀ heads err, encode strtod (streamEvents stream docs) = .ok heads →
        cborToLua heads = .error err → err = outOfRange := by
  have told := encode_stream strtod stream docs
  refine ⟨told, ?_⟩
  intro heads err taken failed
  rw [told] at taken
  cases docs with
  | nil => contradiction
  | cons doc rest =>
      rw [outcome] at taken
      cases fine : doc.node.objection 0 false with
      | some failure =>
          rw [fine] at taken
          contradiction
      | none =>
          rw [fine] at taken
          cases rest with
          | cons next later => contradiction
          | nil =>
              cases taken
              rw [cborToLua_tokens] at failed
              exact convert_raw doc.node fine failed

end

end Qwe.Yaml
