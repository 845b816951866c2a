import Qwe.Lua.Decode
import Qwe.Lua.Retries
import Qwe.Lua.Walk

/-!
# The decoder on what the encoder wrote

The bytes of an item, decoded on the stack, are the item as `convert` has it: the same value,
or the same message.
-/

set_option autoImplicit false

namespace Qwe.Lua.Decode

open Qwe.Cbor
open Qwe.Redact (Bytes)
open Qwe.Template (bytes)
open Qwe.Tinycbor

/-! ## Setting fields of a table on the stack -/

section Fields
variable (L : Stack) (mt : Metatable) (sequence : List Value) (fields : List (Bytes × Value))

theorem setmetatable_table (mt' : Metatable) (others : Bool) :
    ((L.push (.value (.table mt sequence fields others))).push (.metatable mt')).setmetatable =
      L.push (.value (.table mt' sequence fields others)) := by
  rw [Stack.setmetatable, Stack.fromTop_push, Stack.fromTop_two_push, Stack.pop_two_push]

theorem settable_table (key : Bytes) (v : Value) :
    (((L.push (.value (.table mt sequence fields false))).push (.value (.string key))).push
        (.value v)).settable = L.push (.value (.table mt sequence (setField fields key v) false)) := by
  have third : (((L.push (.value (.table mt sequence fields false))).push
      (.value (.string key))).push (.value v)).fromTop 3 =
        some (.value (.table mt sequence fields false)) := by
    have count : (((L.push (.value (.table mt sequence fields false))).push
        (.value (.string key))).push (.value v)).length - 3 = L.length := by
      rw [Stack.length_push, Stack.length_push, Stack.length_push]
      omega
    rw [Stack.fromTop, count, Stack.push, Stack.push, Stack.push, List.append_assoc, List.append_assoc,
      List.getElem?_append_right (Nat.le_refl _), Nat.sub_self]
    rfl
  rw [Stack.settable, third, Stack.fromTop_push, Stack.fromTop_two_push, Stack.pop_three_push]

theorem rawseti_table (v : Value) :
    ((L.push (.value (.table mt sequence fields false))).push (.value v)).rawseti
        (sequence.length + 1) = L.push (.value (.table mt (sequence ++ [v]) fields false)) := by
  rw [Stack.rawseti, Stack.fromTop_push, Stack.fromTop_two_push, Stack.pop_two_push]
  dsimp only
  rw [if_pos rfl]

theorem setfield_table (key : Bytes) (v : Value) :
    ((L.push (.value (.table mt sequence fields false))).push (.value v)).setfield key =
      L.push (.value (.table mt sequence (setField fields key v) false)) := by
  rw [Stack.setfield, Stack.fromTop_push, Stack.fromTop_two_push, Stack.pop_two_push]

end Fields

/-! ## What the bytes of an item are decoded to -/

section Meets
variable {alloc : Nat → Bool} {put : Nat → Number → Bytes} {get : Nat → Bytes → Number}
variable {it it' : CborValue} {text more : Bytes} {st : State}

variable (alloc) in
/-- The item's value is on the stack and the iterator behind the item; or its message is
returned; or an allocation failed. -/
inductive Meets (more : Bytes) (it : CborValue) (L : Stack) :
    Except String Value → Outcome × State → Prop where
  | starved (expected : Except String Value) (st : State) (asked : ∃ k, alloc k = false) :
      Meets more it L expected (.failed (cbor_error_string .outOfMemory), st)
  | failed (msg : String) (st : State) : Meets more it L (.error msg) (.failed msg, st)
  | done (v : Value) {it' : CborValue} (asked : Nat) (next : Next more it it') :
      Meets more it L (.ok v) (.done it', ⟨L.push (.value v), asked⟩)

variable (alloc st) in
theorem convert_string_meets {major : Nat} {s : Bytes} (few : major < 7) (small : s.length < 2 ^ 64)
    (before : Before (head major s.length ++ s) more it) (string : IsString it.type)
    (goes : Goes more it) : Meets alloc more it st.L (.ok (.string s)) (convert_string alloc it st) := by
  have text := before.text
  rw [List.append_assoc] at text
  have headed := before.found (preparse_head few small text)
  have notTag : it.type ≠ .tag := by
    rcases string with type | type <;> rw [type] <;> decide
  obtain ⟨it', parsed, next⟩ := goes.next ⟨SamePlace.refl { it with rest := more }, notTag⟩
  have copied : copy_string it = .ok (s, it') := by
    rw [copy_string_headed headed few small string]
    unfold finish_string_iteration
    rw [headed.known] at parsed
    rw [headed.known, if_neg Bool.false_ne_true, parsed]
  rw [convert_string, copied]
  dsimp only
  by_cases granted : alloc st.asked = true
  · rw [if_pos granted, Stack.replace_push_push]
    exact .done _ _ next
  · rw [if_neg granted]
    exact .starved _ _ ⟨_, Bool.eq_false_iff.mpr granted⟩

theorem fixed_meets {v : Value} (msg : String) (before : Before text more it)
    (advance : (extract_number_and_advance it).2 = { it with rest := more })
    (notString : ¬(it.type = .byteString ∨ it.type = .textString)) (notTag : it.type ≠ .tag)
    (goes : Goes more it) : Meets alloc more it st.L (.ok v) (fixed it v msg st) := by
  obtain ⟨it', advanced, next⟩ := advance_fixed_next before advance notString notTag goes
  rw [fixed, advanced]
  exact .done _ _ next

variable (alloc put get) in
/-- What one level down does. -/
def EachMeets (depth : Nat) (value : CborValue → State → Outcome × State) : Prop :=
  ∀ item more it st, ItemFits put get item → Before (itemBytes put item) more it → Goes more it →
    Meets alloc more it st.L (Lua.convert depth item) (value it st)

variable (alloc put) in
/-- The loop over a container, with the table on top of the stack. -/
inductive LoopMeets (definite : Bool) (more : Bytes) (base : Stack) :
    Except String Value → Outcome × State → Prop where
  | starved (expected : Except String Value) (st : State) (asked : ∃ k, alloc k = false) :
      LoopMeets definite more base expected (.failed (cbor_error_string .outOfMemory), st)
  | failed (msg : String) (st : State) : LoopMeets definite more base (.error msg) (.failed msg, st)
  | done (table : Value) {inner : CborValue} (asked : Nat)
      (ended : Inside put definite false false [] more inner) :
      LoopMeets definite more base (.ok table) (.done inner, ⟨base.push (.value table), asked⟩)

variable {depth : Nat} {value : CborValue → State → Outcome × State}

/-- No more items, or a type that the loop can look at. -/
theorem inside_remaining {definite map key : Bool} {items : List (Item Number)} {inner : CborValue}
    (inside : Inside put definite map key items more inner) : inner.remaining = some 0 ↔ items = [] := by
  cases items with
  | nil => exact ⟨fun _ => rfl, fun _ => inside.1⟩
  | cons item items => exact ⟨fun ended => absurd ended inside.1.there, nofun⟩

theorem convertItems_meets (each : EachMeets alloc put get depth value) {definite : Bool} (base : Stack)
    (items : List (Item Number)) : ∀ (fuel : Nat) (seen : List Value) (key : Bool) (inner : CborValue)
      (st : State), items.length < fuel → ItemsFit put get items →
      Inside put definite false key items more inner →
      st.L = base.push (.value (.table .array seen [] false)) →
        LoopMeets alloc put definite more base
          ((Lua.convertItems depth items).map fun values => .array (seen ++ values))
          (convertEntries alloc value false fuel (seen.length + 1) inner st) := by
  induction items with
  | nil =>
      intro fuel seen key inner st enough fits inside at_
      obtain ⟨fuel, rfl⟩ : ∃ n, fuel = n + 1 := ⟨fuel - 1, by omega⟩
      rw [Decode.convertEntries, if_pos (inside_remaining inside |>.mpr rfl), Lua.convertItems]
      obtain ⟨L, asked⟩ := st
      obtain rfl : L = _ := at_
      show LoopMeets alloc put definite more base (.ok (.array (seen ++ []))) _
      rw [List.append_nil]
      exact .done _ _ inside
  | cons item items inductionHypothesis =>
      intro fuel seen key inner st enough fits inside at_
      obtain ⟨fuel, rfl⟩ : ∃ n, fuel = n + 1 := ⟨fuel - 1, by omega⟩
      rw [Decode.convertEntries, if_neg (mt (inside_remaining inside).mp (List.cons_ne_nil _ _)),
        if_neg Bool.false_ne_true, Lua.convertItems]
      have first := each item _ inner st fits.1 inside.1 (inside.goes fits.2 (by simp))
      generalize Lua.convert depth item = expected at first ⊢
      generalize value inner st = result at first ⊢
      cases first with
      | starved _ _ asked => exact .starved _ _ asked
      | failed msg => exact .failed msg _
      | done v asked next =>
          have inside' := inside.next fits.2 (by simp) next
          have later := inductionHypothesis fuel (seen ++ [v]) _ _
            ⟨base.push (.value (.table .array (seen ++ [v]) [] false)), asked⟩
            (by rw [List.length_cons] at enough; omega) fits.2 inside' rfl
          dsimp only
          rw [at_, rawseti_table]
          rw [List.length_append, List.length_singleton] at later
          generalize Lua.convertItems depth items = expected' at later ⊢
          cases expected' with
          | error msg => exact later
          | ok values =>
              have grouped : seen ++ [v] ++ values = seen ++ (v :: values) := by simp
              rw [Except.map, grouped] at later
              exact later

theorem text_of_cborType {item : Item Number} (type : cborType item = .textString) :
    ∃ s, item = .text s := by
  cases item with
  | text s => exact ⟨s, rfl⟩
  | _ => contradiction

theorem convertEntries_not_text {key item : Item Number} {entries : List (Item Number × Item Number)}
    {fields : List (Bytes × Value)} (other : cborType key ≠ .textString) :
    Lua.convertEntries depth ((key, item) :: entries) fields = .error "map key is not a string" := by
  cases key with
  | text s => exact absurd rfl other
  | _ => rfl

theorem convertEntries_meets (each : EachMeets alloc put get depth value) {definite : Bool} (base : Stack)
    (entries : List (Item Number × Item Number)) : ∀ (fuel : Nat) (fields : List (Bytes × Value))
      (inner : CborValue) (st : State), entries.length < fuel → ItemsFit put get (flatten entries) →
      Inside put definite true false (flatten entries) more inner →
      st.L = base.push (.value (.table .map [] fields false)) →
        LoopMeets alloc put definite more base
          ((Lua.convertEntries depth entries fields).map .map)
          (convertEntries alloc value true fuel 1 inner st) := by
  induction entries with
  | nil =>
      intro fuel fields inner st enough fits inside at_
      obtain ⟨fuel, rfl⟩ : ∃ n, fuel = n + 1 := ⟨fuel - 1, by omega⟩
      rw [Decode.convertEntries, if_pos (inside_remaining inside |>.mpr rfl), Lua.convertEntries]
      obtain ⟨L, asked⟩ := st
      obtain rfl : L = _ := at_
      exact .done _ _ inside
  | cons entry entries inductionHypothesis =>
      intro fuel fields inner st enough fits inside at_
      obtain ⟨fuel, rfl⟩ : ∃ n, fuel = n + 1 := ⟨fuel - 1, by omega⟩
      obtain ⟨key, item⟩ := entry
      obtain ⟨keyFits, itemFits, restFits⟩ : ItemFits put get key ∧ ItemFits put get item ∧
        ItemsFit put get (flatten entries) := fits
      have inside : Inside put definite true false (key :: item :: flatten entries) more inner := inside
      rw [Decode.convertEntries, if_neg (mt (inside_remaining inside).mp (List.cons_ne_nil _ _)), if_pos rfl,
        inside.1.type keyFits]
      by_cases isText : cborType key = .textString
      swap
      · rw [if_pos isText, convertEntries_not_text isText]
        exact .failed _ _
      obtain ⟨s, rfl⟩ := text_of_cborType isText
      rw [if_neg fun other => other rfl, Lua.convertEntries]
      have valueFits : ItemsFit put get (item :: flatten entries) := ⟨itemFits, restFits⟩
      have before := inside.1
      rw [itemBytes_single put rfl, tokenBytes] at before
      have name := convert_string_meets alloc st (by omega) keyFits before
        (Or.inl (inside.1.type keyFits)) (inside.goes valueFits (by simp))
      generalize convert_string alloc inner st = result at name ⊢
      cases name with
      | starved _ _ asked => exact .starved _ _ asked
      | done _ asked next =>
          rename_i second
          have inside' := inside.next valueFits (by simp) next
          have mapped := each item _ second ⟨st.L.push (.value (.string s)), asked⟩ itemFits inside'.1
            (inside'.goes restFits fun _ _ => rfl)
          dsimp only
          generalize Lua.convert depth item = expected at mapped ⊢
          generalize value second ⟨st.L.push (.value (.string s)), asked⟩ = result at mapped ⊢
          cases mapped with
          | starved _ _ asked => exact .starved _ _ asked
          | failed msg => exact .failed msg _
          | done v asked next =>
              have inside'' := inside'.next restFits (fun _ _ => rfl) next
              dsimp only
              rw [at_, settable_table]
              exact inductionHypothesis fuel (setField fields s v) _ _
                (by rw [List.length_cons] at enough; omega) restFits inside'' rfl

/-- What a container does with its loop. -/
theorem container_meets {definite is_map : Bool} {inner : CborValue} {expected : Except String Value}
    {result : Outcome × State} (notTag : it.type ≠ .tag) (goes : Goes more it)
    (loop : LoopMeets alloc put definite more st.L expected result)
    (entered : cbor_value_enter_container it = .ok inner)
    (loops : convertEntries alloc value is_map (inner.rest.length + 1) 1 inner
      ⟨st.L.push (.value (.table (if is_map then .map else .array) [] [] false)), st.asked⟩ = result) :
    Meets alloc more it st.L expected (convert_container alloc (some value) is_map it st) := by
  unfold convert_container
  rw [entered]
  dsimp only
  rw [setmetatable_table, loops]
  cases loop with
  | starved _ _ asked => exact .starved _ _ asked
  | failed msg => exact .failed msg _
  | done table asked ended =>
      obtain ⟨it', left, next⟩ := leave_next ended notTag goes
      dsimp only
      rw [left]
      exact .done _ _ next

/-- The items that are still inside take no more rounds than there are bytes. -/
theorem items_le_rest {definite map key : Bool} {items : List (Item Number)} {inner : CborValue}
    (fits : ItemsFit put get items) (inside : Inside put definite map key items more inner) :
    items.length ≤ inner.rest.length := by
  have counted : ∀ items : List (Item Number), ItemsFit put get items →
      items.length ≤ (itemsBytes put items).length := by
    intro items
    induction items with
    | nil => exact fun _ => Nat.le_refl _
    | cons item rest inductionHypothesis =>
        intro fits
        have later := inductionHypothesis fits.2
        have positive := List.length_pos_iff.mpr (itemBytes_ne_nil fits.1)
        rw [itemsBytes, List.flatMap_cons, List.length_append, List.length_cons]
        rw [itemsBytes] at later
        omega
  cases items with
  | nil => exact Nat.zero_le _
  | cons item rest =>
      have bytes := counted (item :: rest) fits
      rw [itemsBytes, List.flatMap_cons, List.length_append] at bytes
      rw [inside.1.text, List.length_append, List.length_append, itemsBytes]
      omega

/-- A tag that is not that of a secret, or tags that are not in front of a text. -/
theorem convert_tag_refused {t : Nat} {item : Item Number}
    (other : t ≠ secretTag ∨ cborType item.untagged ≠ .textString) :
    Lua.convert depth (.tag t item) = .error (if t ≠ secretTag then "unsupported CBOR tag"
      else "a secret must wrap a text string") := by
  unfold Lua.convert
  by_cases unknown : t ≠ secretTag
  · rw [if_pos unknown, if_pos unknown]
  · rw [if_neg unknown, if_neg unknown]
    have noText := other.resolve_left unknown
    generalize item.untagged = inner at noText
    cases inner with
    | text s => exact absurd rfl noText
    | _ => rfl

theorem convert_tagged_meets {t : Nat} {item : Item Number} (fits : ItemFits put get (.tag t item))
    (before : Before (itemBytes put (.tag t item)) more it) (goes : Goes more it) :
    Meets alloc more it st.L (Lua.convert depth (.tag t item)) (convert_tagged alloc it st) := by
  have text := before.text
  have shorter : (itemBytes put (.tag t item)).length < it.rest.length + 1 := by
    rw [text, List.length_append]
    omega
  obtain ⟨itemFits, it', skipped, before', same⟩ :=
    skip_tags_item (it.rest.length + 1) (.tag t item) it fits before shorter
  rw [Item.untagged] at itemFits before' same
  rw [itemBytes_tag, List.append_assoc] at text
  have headed := before.found (preparse_head (by omega) fits.1 text)
  rw [convert_tagged, headed.number]
  by_cases other : t = secretTag
  swap
  · rw [if_pos other, convert_tag_refused (Or.inl other), if_pos other]
    exact .failed _ _
  subst other
  rw [if_neg (not_not_intro rfl), cbor_value_skip_tag, skipped]
  dsimp only
  rw [before'.type itemFits]
  by_cases isText : cborType item.untagged = .textString
  swap
  · rw [if_pos isText, convert_tag_refused (Or.inr isText), if_neg (not_not_intro rfl)]
    exact .failed _ _
  obtain ⟨s, wrapped⟩ := text_of_cborType isText
  have taken : Lua.convert depth (.tag secretTag item) = .ok (.secret s) := by
    rw [Lua.convert, if_neg (not_not_intro rfl), wrapped]
  rw [if_neg (not_not_intro isText), taken]
  rw [wrapped] at itemFits before' same
  -- what is behind the string is behind the tag
  have behind_of {x : CborValue} (behind : Behind more it' x) : Behind more it x :=
    ⟨⟨behind.same.rest, behind.same.remaining.trans same.remaining,
      behind.same.containerIsMap.trans same.containerIsMap,
      behind.same.nextIsMapKey.trans same.nextIsMapKey⟩, behind.notTag⟩
  have goes' : Goes more it' := fun x behind => goes x (behind_of behind)
  have type := before'.type itemFits
  rw [itemBytes_single put rfl, tokenBytes] at before'
  have string := convert_string_meets alloc
    ⟨st.L.push (.value (.table .none [] [] false)), st.asked⟩ (by omega) itemFits before'
    (Or.inl type) goes'
  dsimp only at string ⊢
  generalize convert_string alloc it' ⟨st.L.push (.value (.table .none [] [] false)), st.asked⟩ = result
    at string ⊢
  cases string with
  | starved _ _ asked => exact .starved _ _ asked
  | done _ asked next =>
      obtain ⟨x, behind, parsed⟩ := next
      dsimp only
      rw [setfield_table, setmetatable_table]
      exact .done _ _ ⟨x, behind_of behind, parsed⟩

/-- The integers that `convert` takes, as the parser has them. -/
theorem convert_int_meets {v : Int} (fits : ItemFits put get (.int v))
    (before : Before (itemBytes put (.int v)) more it) (goes : Goes more it)
    (level : Option (CborValue → State → Outcome × State)) :
    Meets alloc more it st.L (Lua.convert depth (.int v)) (convertItem alloc get level it st) := by
  obtain ⟨low, high⟩ := fits
  have wellFormed : ItemFits put get (.int v) := ⟨low, high⟩
  have type := before.type wellFormed
  have text := before.text
  rw [itemBytes_single put rfl, tokenBytes, intHead] at text
  obtain ⟨major, ui, written, few, small, signed⟩ : ∃ major ui, it.rest = head major ui ++ more ∧
      major < 2 ∧ ui < 2 ^ 64 ∧ v = if major = 1 then -(ui : Int) - 1 else ui := by
    by_cases negative : v < 0
    · rw [if_pos negative] at text
      exact ⟨1, _, text, by omega, by omega, by rw [if_pos rfl]; omega⟩
    · rw [if_neg negative] at text
      exact ⟨0, _, text, by omega, by omega, by rw [if_neg (by decide)]; omega⟩
  have headed := before.found (preparse_head (by omega) small written)
  have checked : cbor_value_get_int64_checked it =
      if ui > 2 ^ 63 - 1 then .error .dataTooLarge else .ok v := by
    rw [cbor_value_get_int64_checked, headed.number, headed.negative, signed]
    simp only [decide_eq_true_eq]
  rw [Lua.convert, convertItem, type, checked]
  by_cases large : ui > 2 ^ 63 - 1
  · have outside : v > maxExact ∨ v < -maxExact := by
      rw [signed, maxExact]
      split <;> omega
    rw [if_pos large, if_pos outside]
    exact .failed _ _
  rw [if_neg large]
  dsimp only
  by_cases outside : v > maxExact ∨ v < -maxExact
  · rw [if_pos outside, if_pos outside]
    exact .failed _ _
  · rw [if_neg outside, if_neg outside]
    have advance : (extract_number_and_advance it).2 = { it with rest := more } := by
      rw [headed.advance]
    exact fixed_meets _ before advance (by simp [type, cborType]) (by simp [type, cborType]) goes

/-- The cases of `convert`, with a level below while the nesting allows it. -/
theorem convertItem_meets {level : Option (CborValue → State → Outcome × State)}
    (room : level = none ↔ depth ≥ luaMaxDepth) (each : ∀ f ∈ level, EachMeets alloc put get (depth + 1) f) :
    EachMeets alloc put get depth (convertItem alloc get level) := by
  intro item more it st fits before goes
  have type := before.type fits
  have simple_ {v : Value} (msg : String) (fixed_ : Fixed it.type more it)
      (notString : ¬(it.type = .byteString ∨ it.type = .textString)) (notTag : it.type ≠ .tag) :
      Meets alloc more it st.L (.ok v) (fixed it v msg st) :=
    fixed_meets msg before fixed_.advance notString notTag goes
  have fixed_of {type' : CborType} (same : it.type = type')
      (looks : ∃ it', preparse_value it = .ok it' ∧ SamePlace it it' ∧ Fixed type' more it') :
      Fixed it.type more it := same ▸ before.found looks
  cases item with
  | int v => exact convert_int_meets fits before goes level
  | text s =>
      rw [itemBytes_single put rfl, tokenBytes] at before
      rw [convertItem, type]
      exact convert_string_meets alloc st (by omega) fits before (Or.inl type) goes
  | bytes s =>
      rw [itemBytes_single put rfl, tokenBytes] at before
      rw [convertItem, type]
      exact convert_string_meets alloc st (by omega) fits before (Or.inr type) goes
  | array definite items =>
      rw [convertItem, type, Lua.convert]
      cases level with
      | none =>
          dsimp only [cborType]
          rw [if_pos (room.mp rfl), convert_container]
          exact .failed _ _
      | some value =>
          dsimp only [cborType]
          rw [if_neg (mt room.mpr (Option.some_ne_none _))]
          rw [itemBytes_array] at before
          obtain ⟨inner, entered, inside⟩ := enter_inside before
            (Or.inl ⟨rfl, type, rfl, fits.1⟩) fits.2
          have few := items_le_rest fits.2 inside
          have loop := convertItems_meets (each value rfl) st.L items (inner.rest.length + 1) [] false
            inner ⟨st.L.push (.value (.table .array [] [] false)), st.asked⟩ (by omega) fits.2 inside rfl
          exact container_meets (by simp [type, cborType]) goes loop entered rfl
  | map definite entries =>
      have valueFits := (entriesFit_iff put get entries).mp fits.2
      rw [convertItem, type, Lua.convert]
      cases level with
      | none =>
          dsimp only [cborType]
          rw [if_pos (room.mp rfl), convert_container]
          exact .failed _ _
      | some value =>
          dsimp only [cborType]
          rw [if_neg (mt room.mpr (Option.some_ne_none _))]
          rw [itemBytes_map] at before
          obtain ⟨inner, entered, inside⟩ := enter_inside before
            (Or.inr ⟨_, rfl, flatten_length entries, type, rfl, fits.1⟩) valueFits
          have few := items_le_rest valueFits inside
          rw [flatten_length] at few
          have loop := convertEntries_meets (each value rfl) st.L entries (inner.rest.length + 1) []
            inner ⟨st.L.push (.value (.table .map [] [] false)), st.asked⟩ (by omega) valueFits inside rfl
          exact container_meets (by simp [type, cborType]) goes loop entered rfl
  | tag t item =>
      rw [convertItem, type]
      exact convert_tagged_meets fits before goes
  | simple n =>
      rw [convertItem, type]
      exact .failed _ _
  | bool b =>
      have text := before.text
      rw [itemBytes_single put rfl] at text
      have found : Fixed .boolean more it ∧ decide (it.extra ≠ 0) = b :=
        before.found (preparse_boolean b text)
      rw [convertItem, type, Lua.convert, ← found.2]
      exact simple_ _ (type ▸ found.1) (by simp [type, cborType]) (by simp [type, cborType])
  | null =>
      rw [convertItem, type, Lua.convert]
      exact simple_ _ (fixed_of type (preparse_null before.text)) (by simp [type, cborType])
        (by simp [type, cborType])
  | undefined =>
      rw [convertItem, type, Lua.convert]
      exact simple_ _ (fixed_of type (preparse_undefined before.text)) (by simp [type, cborType])
        (by simp [type, cborType])
  | float d =>
      have text := before.text
      rw [itemBytes_single put rfl, tokenBytes, List.cons_append] at text
      rw [convertItem, type, Lua.convert]
      dsimp only [cborType]
      rw [text, List.drop_succ_cons, List.drop_zero, List.take_left' fits.1, fits.2]
      exact simple_ _ (fixed_of type (preparse_float fits.1 text)) (by simp [type, cborType])
        (by simp [type, cborType])
  | double d =>
      have text := before.text
      rw [itemBytes_single put rfl, tokenBytes, List.cons_append] at text
      rw [convertItem, type, Lua.convert]
      dsimp only [cborType]
      rw [text, List.drop_succ_cons, List.drop_zero, List.take_left' fits.1, fits.2]
      exact simple_ _ (fixed_of type (preparse_double fits.1 text)) (by simp [type, cborType])
        (by simp [type, cborType])

variable (alloc put get) in
/-- Every level of the decoder reads the bytes of an item as `convert` reads the item. -/
theorem convert_meets (room : Nat) :
    ∀ depth, room + depth = luaMaxDepth → EachMeets alloc put get depth (convert alloc get room) := by
  induction room with
  | zero =>
      intro depth level
      exact convertItem_meets (iff_of_true rfl (by omega)) nofun
  | succ room inductionHypothesis =>
      intro depth level
      refine convertItem_meets (iff_of_false nofun (by omega)) ?_
      intro f same
      cases same
      exact inductionHypothesis (depth + 1) (by omega)

end Meets

end Qwe.Lua.Decode
