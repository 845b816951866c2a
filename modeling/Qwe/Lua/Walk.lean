import Qwe.Lua.Cbor
import Qwe.Lua.Heads

/-!
# The iterators on what was written

tinycbor's parser walks over the bytes of an item: it goes from item to item, into the
containers and out of them, whatever follows.
-/

set_option autoImplicit false

namespace Qwe.Tinycbor

open Qwe.Cbor
open Qwe.Redact (Bytes)
open Qwe.Lua (Number secretTag)

/-! ## Items that have bytes -/

section Items
variable (put : Nat → Number → Bytes) (get : Nat → Bytes → Number)

/-- A float of a size that comes back from its bytes. -/
def FloatFits (size : Nat) (d : Number) : Prop := (put size d).length = size ∧ get size (put size d) = d

mutual

/-- What a head can say of the item, and the parser can count. -/
def ItemFits : Item Number → Prop
  | .int v => -(2 ^ 64 : Int) ≤ v ∧ v < 2 ^ 64
  | .text s => s.length < 2 ^ 64
  | .bytes s => s.length < 2 ^ 64
  | .array definite items => (definite = true → items.length < uint32Max) ∧ ItemsFit items
  | .map definite entries =>
      (definite = true → entries.length ≤ uint32Max / 2) ∧ EntriesFit entries
  | .tag t item => t < 2 ^ 64 ∧ ItemFits item
  | .simple n => n < 20 ∨ 32 ≤ n ∧ n < 256
  | .float d => FloatFits put get 4 d
  | .double d => FloatFits put get 8 d
  | _ => True

def ItemsFit : List (Item Number) → Prop
  | [] => True
  | item :: rest => ItemFits item ∧ ItemsFit rest

def EntriesFit : List (Item Number × Item Number) → Prop
  | [] => True
  | (key, item) :: rest => ItemFits key ∧ ItemFits item ∧ EntriesFit rest

end

theorem itemsFit_iff (items : List (Item Number)) :
    ItemsFit put get items ↔ ∀ item ∈ items, ItemFits put get item := by
  induction items with
  | nil => simp [ItemsFit]
  | cons item rest inductionHypothesis =>
      rw [ItemsFit, inductionHypothesis, List.forall_mem_cons]

/-- The items of a map in the order of their bytes. -/
def flatten (entries : List (Item Number × Item Number)) : List (Item Number) :=
  entries.flatMap fun entry => [entry.1, entry.2]

theorem flatten_length (entries : List (Item Number × Item Number)) :
    (flatten entries).length = 2 * entries.length := by
  induction entries with
  | nil => rfl
  | cons entry rest inductionHypothesis =>
      have unfolded : flatten (entry :: rest) = entry.1 :: entry.2 :: flatten rest := rfl
      rw [unfolded, List.length_cons, List.length_cons, inductionHypothesis, List.length_cons]
      omega

theorem entriesFit_iff (entries : List (Item Number × Item Number)) :
    EntriesFit put get entries ↔ ItemsFit put get (flatten entries) := by
  induction entries with
  | nil => rfl
  | cons entry rest inductionHypothesis =>
      have unfolded : flatten (entry :: rest) = entry.1 :: entry.2 :: flatten rest := rfl
      rw [unfolded, EntriesFit, ItemsFit, ItemsFit, inductionHypothesis]

/-! ## The bytes -/

def itemBytes (item : Item Number) : Bytes := tokensBytes put item.tokens

def itemsBytes (items : List (Item Number)) : Bytes := items.flatMap (itemBytes put)

def closingBytes (definite : Bool) : Bytes := if definite then [] else [0xff]

theorem tokens_append (first later : List (Token Number)) :
    tokensBytes put (first ++ later) = tokensBytes put first ++ tokensBytes put later :=
  List.flatMap_append

theorem tokens_cons (token : Token Number) (rest : List (Token Number)) :
    tokensBytes put (token :: rest) = tokenBytes put token ++ tokensBytes put rest := rfl

theorem tokens_closing (definite : Bool) : tokensBytes put (closing definite) = closingBytes definite := by
  cases definite <;> rfl

theorem itemsTokens_bytes (items : List (Item Number)) :
    tokensBytes put (itemsTokens items) = itemsBytes put items := by
  induction items with
  | nil => rfl
  | cons item rest inductionHypothesis =>
      rw [itemsTokens, tokens_append, inductionHypothesis]
      rfl

theorem entriesTokens_bytes (entries : List (Item Number × Item Number)) :
    tokensBytes put (entriesTokens entries) = itemsBytes put (flatten entries) := by
  induction entries with
  | nil => rfl
  | cons entry rest inductionHypothesis =>
      obtain ⟨key, item⟩ := entry
      rw [entriesTokens, tokens_append, tokens_append, inductionHypothesis, List.append_assoc]
      rfl

theorem itemBytes_array (definite : Bool) (items : List (Item Number)) :
    itemBytes put (.array definite items) =
      tokenBytes put (.array (openCount definite items.length)) ++
        (itemsBytes put items ++ closingBytes definite) := by
  rw [itemBytes, Item.tokens, tokens_cons, tokens_append, itemsTokens_bytes, tokens_closing]

theorem itemBytes_map (definite : Bool) (entries : List (Item Number × Item Number)) :
    itemBytes put (.map definite entries) =
      tokenBytes put (.map (openCount definite entries.length)) ++
        (itemsBytes put (flatten entries) ++ closingBytes definite) := by
  rw [itemBytes, Item.tokens, tokens_cons, tokens_append, entriesTokens_bytes, tokens_closing]

theorem itemBytes_tag (t : Nat) (item : Item Number) :
    itemBytes put (.tag t item) = head 6 t ++ itemBytes put item := rfl

theorem itemBytes_single {item : Item Number} {token : Token Number} (single : item.tokens = [token]) :
    itemBytes put item = tokenBytes put token := by
  rw [itemBytes, single, tokensBytes, List.flatMap_singleton]

end Items

/-! ## The start of an item -/

section Start
variable {put : Nat → Number → Bytes} {get : Nat → Bytes → Number} {it : CborValue} {more : Bytes}

/-- The type that the parser finds. -/
def cborType : Item Number → CborType
  | .int _ => .integer
  | .bytes _ => .byteString
  | .text _ => .textString
  | .array .. => .array
  | .map .. => .map
  | .tag .. => .tag
  | .simple _ => .simple
  | .bool _ => .boolean
  | .null => .null
  | .undefined => .undefined
  | .float _ => .float
  | .double _ => .double

theorem preparse_simple_value {n : Nat} (fits : n < 20 ∨ 32 ≤ n ∧ n < 256)
    (text : it.rest = head 7 n ++ more) :
    ∃ it', preparse_value it = .ok it' ∧ SamePlace it it' ∧ it'.type = .simple := by
  rcases fits with low | ⟨high, byte⟩
  · have value : (UInt8.ofNat (32 * 7 + n)).toNat = 224 + n := by
      rw [UInt8.toNat_ofNat']
      omega
    have major : (UInt8.ofNat (32 * 7 + n)).toNat / 32 = 7 := by omega
    have descriptor : (UInt8.ofNat (32 * 7 + n)).toNat % 32 = n := by omega
    have needs : bytesNeeded n = 0 := if_pos (by omega)
    rw [head, if_pos (by omega)] at text
    rw [preparse_cons it text, descriptor, major, if_neg (by omega), needs, if_neg (Nat.not_lt_zero _)]
    unfold preparse_number
    dsimp only
    rw [if_neg (by decide), if_pos rfl]
    unfold preparse_simple
    split
    case h_9 => exact ⟨_, rfl, ⟨rfl, rfl, rfl, rfl⟩, rfl⟩
    all_goals omega
  · have doubled : doublings n = 0 := by
      rw [doublings, if_neg (by omega), if_neg (by omega), if_neg (by omega)]
    have text' : it.rest = 0xf8 :: (UInt8.ofNat n :: more) := by
      rw [text, head, if_neg (by omega), doubled]
      simp [bigEndian]
    have number : readUint 1 (UInt8.ofNat n :: more) = n := by
      rw [readUint]
      simp
      omega
    have needs : bytesNeeded ((0xf8 : UInt8).toNat % 32) = 1 := by decide
    have enough : ¬(UInt8.ofNat n :: more).length < 1 := by
      rw [List.length_cons]
      omega
    rw [preparse_cons it text', needs, if_neg (by decide), if_neg enough]
    unfold preparse_number
    dsimp only
    rw [if_neg (by decide), if_pos (by decide), number]
    exact ⟨_, if_neg (Nat.not_lt.mpr high), ⟨rfl, rfl, rfl, rfl⟩, rfl⟩

/-- No item starts with a break. -/
theorem not_break_of_preparse {it' : CborValue} (parsed : preparse_value it = .ok it') :
    it.rest.head? ≠ some 0xff := by
  intro break_
  cases left : it.rest with
  | nil =>
      rw [left] at break_
      contradiction
  | cons byte follows =>
      rw [left] at break_
      obtain rfl : byte = 0xff := Option.some.inj break_
      rw [preparse_cons it left] at parsed
      contradiction

/-- `preparse_value` on the bytes of an item. -/
theorem preparse_item {item : Item Number} (fits : ItemFits put get item)
    (text : it.rest = itemBytes put item ++ more) :
    ∃ it', preparse_value it = .ok it' ∧ SamePlace it it' ∧ it'.type = cborType item := by
  have of_head {major ui : Nat} {follows : Bytes} (few : major < 7) (small : ui < 2 ^ 64)
      (text : it.rest = head major ui ++ follows) :
      ∃ it', preparse_value it = .ok it' ∧ SamePlace it it' ∧ it'.type = majorType major := by
    obtain ⟨it', parsed, same, headed⟩ := preparse_head few small text
    exact ⟨it', parsed, same, headed.type⟩
  cases item with
  | int v =>
      rw [ItemFits] at fits
      rw [itemBytes_single put rfl, tokenBytes, intHead] at text
      split at text
      · exact of_head (show 1 < 7 by omega) (by omega) text
      · exact of_head (show 0 < 7 by omega) (by omega) text
  | text s =>
      rw [ItemFits] at fits
      rw [itemBytes_single put rfl, tokenBytes, List.append_assoc] at text
      exact of_head (by omega) fits text
  | bytes s =>
      rw [ItemFits] at fits
      rw [itemBytes_single put rfl, tokenBytes, List.append_assoc] at text
      exact of_head (by omega) fits text
  | array definite items =>
      rw [itemBytes_array, List.append_assoc] at text
      cases definite with
      | true =>
          have few := fits.1 rfl
          rw [uint32Max] at few
          exact of_head (show 4 < 7 by omega) (by omega) text
      | false =>
          obtain ⟨it', parsed, same, type, -⟩ := preparse_unknown (Or.inl ⟨rfl, rfl⟩) text
          exact ⟨it', parsed, same, type⟩
  | map definite entries =>
      rw [itemBytes_map, List.append_assoc] at text
      cases definite with
      | true =>
          have few := fits.1 rfl
          rw [uint32Max] at few
          exact of_head (show 5 < 7 by omega) (by omega) text
      | false =>
          obtain ⟨it', parsed, same, type, -⟩ := preparse_unknown (Or.inr ⟨rfl, rfl⟩) text
          exact ⟨it', parsed, same, type⟩
  | tag t item =>
      rw [ItemFits] at fits
      rw [itemBytes_tag, List.append_assoc] at text
      exact of_head (by omega) fits.1 text
  | simple n =>
      rw [ItemFits] at fits
      rw [itemBytes_single put rfl, tokenBytes] at text
      exact preparse_simple_value fits text
  | bool b =>
      rw [itemBytes_single put rfl] at text
      obtain ⟨it', parsed, same, fixed, -⟩ := preparse_boolean b text
      exact ⟨it', parsed, same, fixed.type⟩
  | null =>
      obtain ⟨it', parsed, same, fixed⟩ := preparse_null text
      exact ⟨it', parsed, same, fixed.type⟩
  | undefined =>
      obtain ⟨it', parsed, same, fixed⟩ := preparse_undefined text
      exact ⟨it', parsed, same, fixed.type⟩
  | float d =>
      rw [ItemFits] at fits
      rw [itemBytes_single put rfl, tokenBytes, List.cons_append] at text
      obtain ⟨it', parsed, same, fixed⟩ := preparse_float fits.1 text
      exact ⟨it', parsed, same, fixed.type⟩
  | double d =>
      rw [ItemFits] at fits
      rw [itemBytes_single put rfl, tokenBytes, List.cons_append] at text
      obtain ⟨it', parsed, same, fixed⟩ := preparse_double fits.1 text
      exact ⟨it', parsed, same, fixed.type⟩

/-- An item has bytes. -/
theorem itemBytes_ne_nil {item : Item Number} (fits : ItemFits put get item) : itemBytes put item ≠ [] := by
  intro none_
  have start : (CborValue.mk (itemBytes put item ++ []) none .invalid 0 false false false false
      false false).rest = itemBytes put item ++ [] := rfl
  obtain ⟨it', parsed, -⟩ := preparse_item fits start
  rw [none_] at parsed
  contradiction

end Start

/-! ## From item to item -/

section Walk
variable {put : Nat → Number → Bytes} {get : Nat → Bytes → Number}
variable {it it' x y : CborValue} {text more : Bytes}

/-- The iterator stands before `text` and has looked at it. -/
structure Before (text more : Bytes) (it : CborValue) : Prop where
  text : it.rest = text ++ more
  looked : preparse_value it = .ok it
  there : it.remaining ≠ some 0

/-- The iterator as a call leaves it behind an item, before it looks at the next one. -/
structure Behind (more : Bytes) (it x : CborValue) : Prop where
  same : SamePlace { it with rest := more } x
  notTag : x.type ≠ .tag

/-- Whatever the iterator has behind it, it can go on. -/
def Goes (more : Bytes) (it : CborValue) : Prop :=
  ∀ x, Behind more it x → ∃ it', preparse_next_value x = .ok it'

/-- The iterator has gone on. -/
def Next (more : Bytes) (it it' : CborValue) : Prop :=
  ∃ x, Behind more it x ∧ preparse_next_value x = .ok it'

theorem SamePlace.refl (it : CborValue) : SamePlace it it := ⟨rfl, rfl, rfl, rfl⟩

theorem looked_again (parsed : preparse_value it = .ok it') (same : SamePlace it it') :
    preparse_value it' = .ok it' := by
  rw [preparse_value_congr same, parsed]

/-- What the look found, once more. -/
theorem Before.found (before : Before text more it) {good : CborValue → Prop}
    (looks : ∃ it', preparse_value it = .ok it' ∧ SamePlace it it' ∧ good it') : good it := by
  obtain ⟨it', parsed, -, found⟩ := looks
  rw [before.looked] at parsed
  cases parsed
  exact found

theorem Before.type {item : Item Number} (before : Before (itemBytes put item) more it)
    (fits : ItemFits put get item) : it.type = cborType item :=
  before.found (preparse_item fits before.text)

/-- Behind the last item nothing is looked at. -/
theorem goes_of_last (last : it.remaining = some 1) : Goes more it := by
  intro x behind
  have last' : x.remaining = some 1 := behind.same.remaining.trans last
  unfold preparse_next_value
  rw [if_neg behind.notTag, last']
  exact ⟨_, rfl⟩

theorem Goes.next (goes : Goes more it) (behind : Behind more it x) :
    ∃ it', preparse_next_value x = .ok it' ∧ Next more it it' := by
  obtain ⟨it', parsed⟩ := goes x behind
  exact ⟨it', parsed, x, behind, parsed⟩

/-- An item of fixed size is left behind. -/
theorem advance_fixed_next (before : Before text more it)
    (advance : (extract_number_and_advance it).2 = { it with rest := more })
    (notString : ¬(it.type = .byteString ∨ it.type = .textString)) (notTag : it.type ≠ .tag)
    (goes : Goes more it) :
    ∃ it', cbor_value_advance_fixed it = .ok it' ∧ Next more it it' := by
  obtain ⟨it', parsed, next⟩ := goes.next ⟨SamePlace.refl { it with rest := more }, notTag⟩
  refine ⟨it', ?_, next⟩
  rw [cbor_value_advance_fixed, if_neg before.there]
  unfold advance_internal
  dsimp only
  rw [advance, if_neg notString]
  exact parsed

/-- Where another item starts, the iterator stands before it. -/
theorem nodecrement_item {item : Item Number} (fits : ItemFits put get item)
    (text : y.rest = itemBytes put item ++ more) (there : y.remaining ≠ some 0) :
    ∃ it', preparse_next_value_nodecrement y = .ok it' ∧ SamePlace y it' ∧
      Before (itemBytes put item) more it' := by
  obtain ⟨it', parsed, same, -⟩ := preparse_item fits text
  refine ⟨it', ?_, same, same.rest.trans text, looked_again parsed same, ?_⟩
  · have notBreak := not_break_of_preparse parsed
    rw [preparse_next_value_nodecrement, if_neg fun ended => notBreak ended.2]
    exact parsed
  · rw [same.remaining]
    exact there

/-- Behind a tag stands what it tags. -/
theorem advance_tag {t : Nat} {item : Item Number} (small : t < 2 ^ 64)
    (fits : ItemFits put get item) (before : Before (itemBytes put (.tag t item)) more it) :
    it.type = .tag ∧ ∃ it', cbor_value_advance_fixed it = .ok it' ∧
      Before (itemBytes put item) more it' ∧
      SamePlace { it with rest := itemBytes put item ++ more } it' := by
  have text := before.text
  rw [itemBytes_tag, List.append_assoc] at text
  have headed : Headed 6 t (itemBytes put item ++ more) it :=
    before.found (preparse_head (by omega) small text)
  have tag : it.type = .tag := headed.type
  obtain ⟨it', parsed, same, before'⟩ := nodecrement_item
    (y := { it with rest := itemBytes put item ++ more }) fits rfl before.there
  refine ⟨tag, it', ?_, before', same⟩
  rw [cbor_value_advance_fixed, if_neg before.there]
  unfold advance_internal
  rw [headed.advance]
  dsimp only
  rw [if_neg (by rw [tag]; decide), preparse_next_value, if_pos tag]
  exact parsed

theorem untagged_of_not_tag {item : Item Number} (notTag : cborType item ≠ .tag) :
    item.untagged = item := by
  cases item with
  | tag t inner => exact absurd rfl notTag
  | _ => rfl

/-- Behind a run of tags stands what they tag. -/
theorem skip_tags_item (fuel : Nat) : ∀ (item : Item Number) (it : CborValue),
    ItemFits put get item → Before (itemBytes put item) more it →
    (itemBytes put item).length < fuel →
    ItemFits put get item.untagged ∧ ∃ it', skip_tags fuel it = .ok it' ∧
      Before (itemBytes put item.untagged) more it' ∧
      SamePlace { it with rest := itemBytes put item.untagged ++ more } it' := by
  induction fuel with
  | zero =>
      intro item it fits before short
      exact absurd short (Nat.not_lt_zero _)
  | succ fuel inductionHypothesis =>
      intro item it fits before short
      by_cases tagged : cborType item = .tag
      swap
      · rw [untagged_of_not_tag tagged, skip_tags, before.type fits, if_neg tagged]
        exact ⟨fits, it, rfl, before, before.text, rfl, rfl, rfl⟩
      cases item with
      | tag t inner =>
          obtain ⟨small, innerFits⟩ := fits
          obtain ⟨tag, it', advanced, before', same⟩ := advance_tag small innerFits before
          have shorter : (itemBytes put inner).length < fuel := by
            have headed : 0 < (head 6 t).length := by
              unfold head
              split <;> exact Nat.succ_pos _
            rw [itemBytes_tag, List.length_append] at short
            omega
          obtain ⟨fits', last, skipped, before'', same'⟩ :=
            inductionHypothesis inner it' innerFits before' shorter
          rw [skip_tags, if_pos tag, advanced]
          exact ⟨fits', last, skipped, before'', ⟨same'.rest, same'.remaining.trans same.remaining,
            same'.containerIsMap.trans same.containerIsMap,
            same'.nextIsMapKey.trans same.nextIsMapKey⟩⟩
      | _ => contradiction

/-! ## Inside a container -/

variable (put) in
/-- The iterator of a container that still has these items.  `key`: a key of a map was passed
last. -/
def Inside (definite map key : Bool) : List (Item Number) → Bytes → CborValue → Prop
  | [], more, inner =>
      inner.remaining = some 0 ∧ inner.unknownLength = !definite ∧
        inner.rest = closingBytes definite ++ more
  | item :: items, more, inner =>
      Before (itemBytes put item) (itemsBytes put items ++ (closingBytes definite ++ more)) inner ∧
        inner.remaining = openCount definite (items.length + 1) ∧
        inner.containerIsMap = map ∧ inner.nextIsMapKey = key

variable {definite map key : Bool} {item : Item Number} {items : List (Item Number)}

/-- Before the items of a container, or behind the last one where there is no count. -/
theorem nodecrement_inside (fits : ItemsFit put get items)
    (rest : y.rest = itemsBytes put items ++ (closingBytes definite ++ more))
    (remaining : y.remaining = openCount definite items.length)
    (some_ : definite = true → items ≠ []) (isMap : y.containerIsMap = map)
    (isKey : y.nextIsMapKey = key) (notTag : y.type ≠ .tag)
    (paired : items = [] → map = true → key = false) :
    ∃ inner, preparse_next_value_nodecrement y = .ok inner ∧ Inside put definite map key items more inner := by
  cases items with
  | nil =>
      cases definite with
      | true => exact absurd rfl (some_ rfl)
      | false =>
          have break_ : y.rest.head? = some 0xff := by
            rw [rest]
            rfl
          have expected : ¬(y.containerIsMap = true ∧ y.nextIsMapKey = true ∨ y.type = .tag) := by
            rintro (⟨map_, key_⟩ | tag)
            · rw [isMap] at map_
              rw [isKey, paired rfl map_] at key_
              contradiction
            · exact notTag tag
          refine ⟨{ y with type := .invalid, remaining := some 0, unknownLength := true }, ?_, rfl, rfl,
            rest⟩
          rw [preparse_next_value_nodecrement, if_pos ⟨remaining, break_⟩, if_neg expected]
  | cons item items =>
      have text : y.rest = itemBytes put item ++ (itemsBytes put items ++ (closingBytes definite ++ more)) := by
        rw [rest, itemsBytes, List.flatMap_cons, List.append_assoc]
        rfl
      have there : y.remaining ≠ some 0 := by
        rw [remaining]
        cases definite <;> simp [openCount]
      obtain ⟨inner, parsed, same, before⟩ := nodecrement_item fits.1 text there
      exact ⟨inner, parsed, before, same.remaining.trans remaining, same.containerIsMap.trans isMap,
        same.nextIsMapKey.trans isKey⟩

/-- Behind an item of a container the iterator goes on. -/
theorem Inside.preparse_next (inside : Inside put definite map key (item :: items) more it)
    (fits : ItemsFit put get items) (paired : items = [] → map = true → key = true)
    (behind : Behind (itemsBytes put items ++ (closingBytes definite ++ more)) it x) :
    ∃ inner, preparse_next_value x = .ok inner ∧ Inside put definite map (!key) items more inner := by
  obtain ⟨-, remaining, isMap, isKey⟩ := inside
  have rest : x.rest = itemsBytes put items ++ (closingBytes definite ++ more) := behind.same.rest
  have left : x.remaining = openCount definite (items.length + 1) := behind.same.remaining.trans remaining
  have isMap' : x.containerIsMap = map := behind.same.containerIsMap.trans isMap
  have isKey' : x.nextIsMapKey = key := behind.same.nextIsMapKey.trans isKey
  have paired' : items = [] → map = true → (!key) = false := by
    intro last map_
    rw [paired last map_]
    rfl
  unfold preparse_next_value
  rw [if_neg behind.notTag]
  dsimp only
  cases definite with
  | false =>
      obtain left : x.remaining = none := left
      rw [left]
      exact nodecrement_inside (y := { x with nextIsMapKey := !x.nextIsMapKey, remaining := none }) fits
        rest rfl nofun isMap' (congrArg not isKey') behind.notTag paired'
  | true =>
      cases items with
      | nil =>
          obtain left : x.remaining = some 1 := left
          rw [left]
          exact ⟨_, rfl, rfl, rfl, rest⟩
      | cons next items =>
          obtain left : x.remaining = some (items.length + 2) := left
          rw [left]
          exact nodecrement_inside
            (y := { x with nextIsMapKey := !x.nextIsMapKey, remaining := some (items.length + 1) })
            fits rest rfl (fun _ => List.cons_ne_nil _ _) isMap' (congrArg not isKey') behind.notTag paired'

theorem Inside.goes (inside : Inside put definite map key (item :: items) more it)
    (fits : ItemsFit put get items) (paired : items = [] → map = true → key = true) :
    Goes (itemsBytes put items ++ (closingBytes definite ++ more)) it := by
  intro x behind
  obtain ⟨inner, parsed, -⟩ := inside.preparse_next fits paired behind
  exact ⟨inner, parsed⟩

theorem Inside.next (inside : Inside put definite map key (item :: items) more it)
    (fits : ItemsFit put get items) (paired : items = [] → map = true → key = true)
    (next : Next (itemsBytes put items ++ (closingBytes definite ++ more)) it it') :
    Inside put definite map (!key) items more it' := by
  obtain ⟨x, behind, parsed⟩ := next
  obtain ⟨inner, parsed', inside'⟩ := inside.preparse_next fits paired behind
  rw [parsed] at parsed'
  cases parsed'
  exact inside'

/-- Into an array or a map. -/
theorem enter_inside {token : Token Number} (before : Before (tokenBytes put token ++
      (itemsBytes put items ++ closingBytes definite)) more it)
    (start : (token = .array (openCount definite items.length) ∧ it.type = .array ∧ map = false ∧
        (definite = true → items.length < uint32Max)) ∨
      (∃ n, token = .map (openCount definite n) ∧ items.length = 2 * n ∧ it.type = .map ∧ map = true ∧
        (definite = true → n ≤ uint32Max / 2)))
    (fits : ItemsFit put get items) :
    ∃ inner, cbor_value_enter_container it = .ok inner ∧ Inside put definite map false items more inner := by
  have isMap : decide (it.type = .map) = map := by
    rcases start with ⟨-, type, rfl, -⟩ | ⟨n, -, -, type, rfl, -⟩ <;> rw [type] <;> rfl
  have notTag : it.type ≠ .tag := by
    rcases start with ⟨-, type, -⟩ | ⟨n, -, -, type, -⟩ <;> rw [type] <;> decide
  cases definite with
  | false =>
      obtain ⟨byte, written, unusual⟩ : ∃ byte, tokenBytes put token = [byte] ∧
          (byte = 0x9f ∧ it.type = .array ∨ byte = 0xbf ∧ it.type = .map) := by
        rcases start with ⟨rfl, type, -⟩ | ⟨n, rfl, -, type, -⟩
        · exact ⟨_, rfl, Or.inl ⟨rfl, type⟩⟩
        · exact ⟨_, rfl, Or.inr ⟨rfl, type⟩⟩
      have rest : it.rest = byte :: (itemsBytes put items ++ (closingBytes false ++ more)) := by
        rw [before.text, written, List.append_assoc, List.append_assoc]
        rfl
      have unknown : it.unknownLength = true := (before.found (preparse_unknown unusual rest)).2
      unfold cbor_value_enter_container
      dsimp only
      rw [if_pos unknown]
      refine nodecrement_inside fits ?_ rfl nofun isMap rfl notTag fun _ _ => rfl
      dsimp only [advance_bytes]
      rw [rest]
      rfl
  | true =>
      obtain ⟨major, n, written, few, small, count, fine⟩ : ∃ major n, tokenBytes put token = head major n ∧
          major < 7 ∧ n < uint32Max ∧ items.length = (if it.type = .map then 2 * n else n) ∧
          ¬(n ≥ uint32Max ∨ it.type = .map ∧ n > uint32Max / 2) := by
        rcases start with ⟨rfl, type, -, most⟩ | ⟨n, rfl, twice, type, -, most⟩
        · have most := most rfl
          refine ⟨4, items.length, rfl, by omega, most, ?_, ?_⟩
          · rw [if_neg (by rw [type]; decide)]
          · rintro (tooMany | ⟨wrong, -⟩)
            · omega
            · rw [type] at wrong
              contradiction
        · have most := most rfl
          have half : uint32Max / 2 < uint32Max := by decide
          refine ⟨5, n, rfl, by omega, by omega, ?_, ?_⟩
          · rw [if_pos type, twice]
          · omega
      have text := before.text
      rw [written, List.append_assoc] at text
      have wide : uint32Max < 2 ^ 64 := by decide
      have headed := before.found (preparse_head few (by omega) text)
      unfold cbor_value_enter_container
      dsimp only
      rw [headed.known, if_neg Bool.false_ne_true, headed.advance]
      dsimp only
      rw [if_neg fine]
      cases items with
      | nil =>
          have zero : n = 0 := by
            rw [List.length_nil] at count
            split at count <;> omega
          rw [if_pos zero]
          refine ⟨_, rfl, ?_, headed.known, List.append_assoc _ _ _⟩
          rw [← count]
          rfl
      | cons item rest =>
          have some_ : n ≠ 0 := by
            rintro rfl
            rw [List.length_cons] at count
            split at count <;> omega
          rw [if_neg some_, ← count]
          exact nodecrement_inside fits (List.append_assoc _ _ _) rfl (fun _ => List.cons_ne_nil _ _) isMap rfl
            notTag fun last => absurd last (List.cons_ne_nil _ _)

/-- Out of the container, behind its last item. -/
theorem leave_next {inner : CborValue} (ended : Inside put definite map key [] more inner)
    (notTag : it.type ≠ .tag) (goes : Goes more it) :
    ∃ it', cbor_value_leave_container it inner = .ok it' ∧ Next more it it' := by
  obtain ⟨-, unknown, rest⟩ := ended
  obtain ⟨it', parsed, next⟩ := goes.next ⟨SamePlace.refl { it with rest := more }, notTag⟩
  refine ⟨it', ?_, next⟩
  rw [cbor_value_leave_container, unknown]
  cases definite with
  | true =>
      obtain rest : inner.rest = more := rest
      rw [rest]
      exact parsed
  | false =>
      obtain rest : inner.rest = 0xff :: more := rest
      rw [rest]
      exact parsed

end Walk

end Qwe.Tinycbor
