import Qwe.Lua.Parser
import Qwe.Lua.Stack
import Qwe.Lua.Cbor

/-!
# The decoder on the Lua stack

`qwe_cbor_to_lua` with what the calls of `src/kernel/luacbor.c` do to the Lua stack, on
the bytes of a document.  `alloc` tells which of the string buffers tinycbor asks for it
gets; the allocations of Lua itself do not fail.
-/

set_option autoImplicit false

namespace Qwe.Lua.Decode

open Qwe.Redact (Bytes)
open Qwe.Template (bytes)
open Qwe.Tinycbor

/-- The iterator behind the item, or the message of `convert`; `stuck` is to run out of
fuel. -/
inductive Outcome where
  | done (it : CborValue)
  | failed (msg : String)
  | stuck

structure State where
  L : Stack
  asked : Nat

section Convert
variable (alloc : Nat → Bool)
/- The number that the bytes of a float of a size stand for. -/
variable (get : Nat → Bytes → Number)

/-- `convert_string`, with `_cbor_value_dup_string` and `qwe_lua_own_pushlstring`. -/
def convert_string (it : CborValue) (st : State) : Outcome × State :=
  match copy_string it with
  | .stuck => (.stuck, st)
  | .error err => (.failed (cbor_error_string err), st)
  | .ok (s, it) =>
      if alloc st.asked then
        let L := st.L.push .block
        let idx := L.length
        let L := L.push (.value (.string s))
        (.done it, ⟨L.replace idx, st.asked + 1⟩)
      else (.failed (cbor_error_string .outOfMemory), ⟨st.L, st.asked + 1⟩)

/-- An item of fixed size was pushed. -/
def fixed (it : CborValue) (v : Value) (msg : String) (st : State) : Outcome × State :=
  let st := { st with L := st.L.push (.value v) }
  match cbor_value_advance_fixed it with
  | .ok it => (.done it, st)
  | .error _ => (.failed msg, st)

/-- The loop of `convert_container`; `value` is `convert` one level down. -/
def convertEntries (value : CborValue → State → Outcome × State) (is_map : Bool) :
    Nat → Nat → CborValue → State → Outcome × State
  | 0, _, _, st => (.stuck, st)
  | fuel + 1, index, inner, st =>
      if inner.remaining = some 0 then (.done inner, st)
      else if is_map then
        if inner.type ≠ .textString then (.failed "map key is not a string", st)
        else
          match convert_string alloc inner st with
          | (.done inner, st) =>
              match value inner st with
              | (.done inner, st) =>
                  convertEntries value is_map fuel index inner { st with L := st.L.settable }
              | result => result
          | result => result
      else
        match value inner st with
        | (.done inner, st) =>
            convertEntries value is_map fuel (index + 1) inner
              { st with L := st.L.rawseti index }
        | result => result

/-- `convert_container`; there is no `value` where the nesting is too deep. -/
def convert_container (value : Option (CborValue → State → Outcome × State)) (is_map : Bool)
    (it : CborValue) (st : State) : Outcome × State :=
  match value with
  | none => (.failed "nesting too deep", st)
  | some value =>
      match cbor_value_enter_container it with
      | .error _ => (.failed "malformed container", st)
      | .ok inner =>
          let L := st.L.push (.value (.table .none [] [] false))
          let L := L.push (.metatable (if is_map then .map else .array))
          let L := L.setmetatable
          match convertEntries alloc value is_map (inner.rest.length + 1) 1 inner { st with L } with
          | (.done inner, st) =>
              match cbor_value_leave_container it inner with
              | .error _ => (.failed "malformed container", st)
              | .ok it => (.done it, st)
          | result => result

/-- `convert_tagged` -/
def convert_tagged (it : CborValue) (st : State) : Outcome × State :=
  if extract_int64 it ≠ secretTag then (.failed "unsupported CBOR tag", st)
  else
    match cbor_value_skip_tag it with
    | .stuck => (.stuck, st)
    | .error _ => (.failed "a secret must wrap a text string", st)
    | .ok it =>
        if it.type ≠ .textString then (.failed "a secret must wrap a text string", st)
        else
          let L := st.L.push (.value (.table .none [] [] false))
          match convert_string alloc it { st with L } with
          | (.done it, st) =>
              let L := st.L.setfield (bytes "value")
              let L := L.push (.metatable .secret)
              (.done it, { st with L := L.setmetatable })
          | result => result

/-- The cases of `convert`. -/
def convertItem (value : Option (CborValue → State → Outcome × State)) (it : CborValue)
    (st : State) : Outcome × State :=
  match it.type with
  | .integer =>
      match cbor_value_get_int64_checked it with
      | .error _ => (.failed "integer out of range (beyond 2^53)", st)
      | .ok v =>
          if v > maxExact ∨ v < -maxExact then (.failed "integer out of range (beyond 2^53)", st)
          else fixed it (.number (.finite v)) "malformed integer" st
  | .textString => convert_string alloc it st
  | .byteString => convert_string alloc it st
  | .map => convert_container alloc value true it st
  | .array => convert_container alloc value false it st
  | .tag => convert_tagged alloc it st
  | .boolean => fixed it (.boolean (it.extra ≠ 0)) "malformed boolean" st
  | .null => fixed it null "malformed null" st
  | .undefined => fixed it null "malformed null" st
  | .double => fixed it (.number (get 8 ((it.rest.drop 1).take 8))) "malformed float" st
  | .float => fixed it (.number (get 4 ((it.rest.drop 1).take 4))) "malformed float" st
  | _ => (.failed "unsupported CBOR type", st)

/-- `convert` with `room` levels of containers left, `QWE_LUA_MAX_DEPTH` less its `depth`. -/
def convert : Nat → CborValue → State → Outcome × State
  | 0 => convertItem alloc get none
  | room + 1 => convertItem alloc get (some (convert room))

/-- `qwe_cbor_to_lua`: nothing when it does not end. -/
def qwe_cbor_to_lua (buf : Bytes) (L : Stack) : Option (Except String Unit × Stack) :=
  let top := L.length
  let L := ensure_metatables L
  match cbor_parser_init buf with
  | .error _ => some (.error "invalid CBOR", L)
  | .ok it =>
      match convert alloc get luaMaxDepth it ⟨L, 0⟩ with
      | (.done _, st) => some (.ok (), st.L)
      | (.failed msg, st) => some (.error msg, st.L.settop top)
      | (.stuck, _) => none

end Convert

/-! ## What the decoder leaves on the stack -/

/-- The call ends: behind the item, with one slot more, or with some slots more. -/
def Leaves (it : CborValue) (L : Stack) (result : Outcome × State) : Prop :=
  match result.1 with
  | .done it' => it'.rest.length < it.rest.length ∧ Ready it' ∧ ∃ slot, result.2.L = L.push slot
  | .failed _ => ∃ more, result.2.L = L ++ more
  | .stuck => False

section Leaves
variable {alloc : Nat → Bool} {get : Nat → Bytes → Number} {it : CborValue} {st : State}

theorem leaves_failed (msg : String) : Leaves it st.L (.failed msg, st) :=
  ⟨[], (List.append_nil _).symm⟩

theorem leaves_failed_push (msg : String) (slot : Slot) :
    Leaves it st.L (.failed msg, { st with L := st.L.push slot }) := ⟨[slot], rfl⟩

theorem convert_string_leaves (ready : Ready it) (string : IsString it.type) :
    Leaves it st.L (convert_string alloc it st) := by
  have copied := copy_string_forward ready string
  unfold convert_string
  cases result : copy_string it with
  | stuck =>
      rw [result] at copied
      exact copied
  | error err => exact leaves_failed _
  | ok last =>
      rw [result] at copied
      obtain ⟨s, it'⟩ := last
      dsimp only
      by_cases granted : alloc st.asked = true
      · rw [if_pos granted]
        exact ⟨copied.1, copied.2, _, Stack.replace_push_push⟩
      · rw [if_neg granted]
        exact ⟨[], (List.append_nil _).symm⟩

theorem fixed_leaves (ready : Ready it) (valid : it.type ≠ .invalid) (v : Value) (msg : String) :
    Leaves it st.L (fixed it v msg st) := by
  unfold fixed
  cases advanced : cbor_value_advance_fixed it with
  | error err => exact leaves_failed_push msg _
  | ok it' =>
      obtain ⟨less, ready'⟩ := advance_fixed_forward ready valid advanced
      exact ⟨less, ready', _, rfl⟩

/-- What one level down does. -/
def EachLeaves (value : CborValue → State → Outcome × State) : Prop :=
  ∀ it st, Ready it → Leaves it st.L (value it st)

/-- The loop over a container, with the table on top of the stack. -/
def LoopLeaves (inner : CborValue) (base : Stack) (result : Outcome × State) : Prop :=
  match result.1 with
  | .done inner' =>
      inner'.rest.length ≤ inner.rest.length ∧ Ready inner' ∧ ∃ table, result.2.L = base.push table
  | .failed _ => ∃ more, result.2.L = base ++ more
  | .stuck => False

theorem LoopLeaves.step {inner next : CborValue} {base : Stack} {result : Outcome × State}
    (less : next.rest.length < inner.rest.length) (leaves : LoopLeaves next base result) :
    LoopLeaves inner base result := by
  obtain ⟨outcome, st⟩ := result
  cases outcome with
  | done last => exact ⟨by have := leaves.1; omega, leaves.2⟩
  | failed msg => exact leaves
  | stuck => exact leaves

/-- What fails above the table fails above what is below it. -/
theorem loopLeaves_failed {inner : CborValue} {base : Stack} {table : Slot} {msg : String} {st : State}
    (left : ∃ more, st.L = base.push table ++ more) : LoopLeaves inner base (.failed msg, st) := by
  obtain ⟨more, same⟩ := left
  exact ⟨table :: more, same.trans (List.append_assoc base [table] more)⟩

variable (alloc) in
theorem convertEntries_leaves {value : CborValue → State → Outcome × State}
    (each : EachLeaves value) (is_map : Bool) (base : Stack) (fuel : Nat) :
    ∀ index inner st table, Ready inner → inner.rest.length < fuel → st.L = base.push table →
      LoopLeaves inner base (convertEntries alloc value is_map fuel index inner st) := by
  induction fuel with
  | zero =>
      intro index inner st table _ short
      exact absurd short (Nat.not_lt_zero _)
  | succ fuel inductionHypothesis =>
      intro index inner st table ready short at_
      rw [convertEntries]
      by_cases ended : inner.remaining = some 0
      · rw [if_pos ended]
        exact ⟨Nat.le_refl _, ready, table, at_⟩
      rw [if_neg ended]
      cases is_map with
      | true =>
          rw [if_pos rfl]
          by_cases text : inner.type = .textString
          swap
          · rw [if_pos text]
            exact ⟨[table], at_⟩
          rw [if_neg (not_not_intro text)]
          have key : Leaves inner st.L (convert_string alloc inner st) :=
            convert_string_leaves ready (Or.inl text)
          generalize convert_string alloc inner st = first at key ⊢
          obtain ⟨outcome, st'⟩ := first
          cases outcome with
          | stuck => exact key
          | failed msg => exact loopLeaves_failed (at_ ▸ key)
          | done next =>
              obtain ⟨less, ready', slot, pushed⟩ := key
              have item := each next st' ready'
              dsimp only at pushed item ⊢
              generalize value next st' = second at item ⊢
              obtain ⟨outcome, st''⟩ := second
              cases outcome with
              | stuck => exact item
              | failed msg =>
                  obtain ⟨more, left⟩ := item
                  rw [pushed, at_] at left
                  have above : ∃ more, st''.L = base.push table ++ more :=
                    ⟨slot :: more, left.trans (List.append_assoc (base.push table) [slot] more)⟩
                  exact loopLeaves_failed above
              | done last =>
                  obtain ⟨less', ready'', slot', pushed'⟩ := item
                  obtain ⟨table', set_⟩ :=
                    Stack.settable_push (L := base) (a := table) (b := slot) slot'
                  refine LoopLeaves.step (by omega) (inductionHypothesis index last _ table' ready''
                    (by omega) ?_)
                  dsimp only at pushed' ⊢
                  rw [pushed', pushed, at_]
                  exact set_
      | false =>
          rw [if_neg Bool.false_ne_true]
          have item := each inner st ready
          generalize value inner st = first at item ⊢
          obtain ⟨outcome, st'⟩ := first
          cases outcome with
          | stuck => exact item
          | failed msg => exact loopLeaves_failed (at_ ▸ item)
          | done next =>
              obtain ⟨less, ready', slot, pushed⟩ := item
              obtain ⟨table', set_⟩ := Stack.rawseti_push (L := base) (a := table) (b := slot) index
              refine LoopLeaves.step less (inductionHypothesis (index + 1) next _ table' ready'
                (by omega) ?_)
              dsimp only at pushed ⊢
              rw [pushed, at_]
              exact set_

theorem convert_container_leaves {value : Option (CborValue → State → Outcome × State)}
    (each : ∀ f ∈ value, EachLeaves f) (is_map : Bool) (ready : Ready it)
    (valid : it.type ≠ .invalid) :
    Leaves it st.L (convert_container alloc value is_map it st) := by
  cases value with
  | none => exact leaves_failed _
  | some value =>
      unfold convert_container
      cases entered : cbor_value_enter_container it with
      | error err => exact leaves_failed _
      | ok inner =>
          obtain ⟨less, ready'⟩ := enter_forward ready valid entered
          obtain ⟨table, set_⟩ := Stack.setmetatable_push (L := st.L)
            (a := .value (.table .none [] [] false)) (if is_map then .map else .array)
          have loop := convertEntries_leaves alloc (each value rfl) is_map st.L
            (inner.rest.length + 1) 1 inner { st with L := st.L.push table } table ready' (by omega)
            rfl
          dsimp only
          rw [set_]
          generalize convertEntries alloc value is_map (inner.rest.length + 1) 1 inner
            { st with L := st.L.push table } = result at loop ⊢
          obtain ⟨outcome, st'⟩ := result
          cases outcome with
          | stuck => exact loop
          | failed msg => exact loop
          | done last =>
              obtain ⟨shorter, -, table', left⟩ := loop
              dsimp only at left ⊢
              cases back : cbor_value_leave_container it last with
              | error err => exact ⟨[table'], left⟩
              | ok it' =>
                  obtain ⟨behind, ready''⟩ := leave_forward back
                  exact ⟨by omega, ready'', table', left⟩

theorem convert_tagged_leaves (ready : Ready it) :
    Leaves it st.L (convert_tagged alloc it st) := by
  unfold convert_tagged
  split
  · exact leaves_failed _
  have skipped := skip_tags_forward (it.rest.length + 1) it ready (Nat.lt_succ_self _)
  unfold cbor_value_skip_tag
  cases result : skip_tags (it.rest.length + 1) it with
  | stuck =>
      rw [result] at skipped
      exact skipped
  | error err => exact leaves_failed _
  | ok behind =>
      rw [result] at skipped
      obtain ⟨shorter, ready'⟩ := skipped
      dsimp only
      split
      · exact leaves_failed _
      rename_i text
      have text := Decidable.not_not.mp text
      have string : Leaves behind (st.L.push (.value (.table .none [] [] false)))
          (convert_string alloc behind
            { st with L := st.L.push (.value (.table .none [] [] false)) }) :=
        convert_string_leaves ready' (Or.inl text)
      generalize convert_string alloc behind
        { st with L := st.L.push (.value (.table .none [] [] false)) } = first at string ⊢
      obtain ⟨outcome, st'⟩ := first
      cases outcome with
      | stuck => exact string
      | failed msg =>
          obtain ⟨more, left⟩ := string
          exact ⟨_ :: more, left.trans (List.append_assoc st.L [_] more)⟩
      | done last =>
          obtain ⟨less, ready'', slot, pushed⟩ := string
          obtain ⟨table, set_⟩ := Stack.setfield_push (L := st.L)
            (a := .value (.table .none [] [] false)) (b := slot) (bytes "value")
          obtain ⟨table', set_'⟩ := Stack.setmetatable_push (L := st.L) (a := table) .secret
          dsimp only at pushed ⊢
          refine ⟨by omega, ready'', table', ?_⟩
          dsimp only
          rw [pushed, set_, set_']

theorem convertItem_leaves {value : Option (CborValue → State → Outcome × State)}
    (each : ∀ f ∈ value, EachLeaves f) (ready : Ready it) :
    Leaves it st.L (convertItem alloc get value it st) := by
  have valid {type : CborType} (same : it.type = type) (other : type ≠ .invalid) :
      it.type ≠ .invalid := same ▸ other
  unfold convertItem
  split
  case h_1 type =>
    cases cbor_value_get_int64_checked it with
    | error err => exact leaves_failed _
    | ok v =>
        dsimp only
        split
        · exact leaves_failed _
        · exact fixed_leaves ready (valid type (by decide)) _ _
  case h_2 type => exact convert_string_leaves ready (Or.inl type)
  case h_3 type => exact convert_string_leaves ready (Or.inr type)
  case h_4 type => exact convert_container_leaves each true ready (valid type (by decide))
  case h_5 type => exact convert_container_leaves each false ready (valid type (by decide))
  case h_6 => exact convert_tagged_leaves ready
  case h_7 type => exact fixed_leaves ready (valid type (by decide)) _ _
  case h_8 type => exact fixed_leaves ready (valid type (by decide)) _ _
  case h_9 type => exact fixed_leaves ready (valid type (by decide)) _ _
  case h_10 type => exact fixed_leaves ready (valid type (by decide)) _ _
  case h_11 type => exact fixed_leaves ready (valid type (by decide)) _ _
  case h_12 => exact leaves_failed _

variable (alloc get) in
/-- Every level of `convert` pushes its value, or something more before it fails. -/
theorem convert_leaves (room : Nat) : EachLeaves (convert alloc get room) := by
  induction room with
  | zero =>
      intro it st ready
      exact convertItem_leaves nofun ready
  | succ room inductionHypothesis =>
      intro it st ready
      refine convertItem_leaves ?_ ready
      intro f same
      cases same
      exact inductionHypothesis

variable (alloc get) in
/-- A document leaves one value on the stack, or nothing. -/
theorem qwe_cbor_to_lua_leaves (buf : Bytes) (L : Stack) :
    (∃ slot, qwe_cbor_to_lua alloc get buf L = some (.ok (), L.push slot)) ∨
    ∃ msg, qwe_cbor_to_lua alloc get buf L = some (.error msg, L) := by
  unfold qwe_cbor_to_lua
  rw [ensure_metatables_eq]
  cases parsed : cbor_parser_init buf with
  | error err => exact Or.inr ⟨_, rfl⟩
  | ok it =>
      obtain ⟨same, some_, head⟩ := preparse_value_rest parsed
      have ready : Ready it := ⟨fun _ => same ▸ some_, same ▸ head⟩
      have leaves := convert_leaves alloc get luaMaxDepth it ⟨L, 0⟩ ready
      dsimp only
      generalize convert alloc get luaMaxDepth it ⟨L, 0⟩ = result at leaves ⊢
      obtain ⟨outcome, st⟩ := result
      cases outcome with
      | stuck => exact leaves.elim
      | failed msg =>
          obtain ⟨more, left⟩ := leaves
          refine Or.inr ⟨msg, ?_⟩
          dsimp only at left ⊢
          rw [left, Stack.settop_append]
      | done last =>
          obtain ⟨-, -, slot, pushed⟩ := leaves
          refine Or.inl ⟨slot, ?_⟩
          dsimp only at pushed ⊢
          rw [pushed]

end Leaves

end Qwe.Lua.Decode
