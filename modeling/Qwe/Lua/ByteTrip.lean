import Qwe.Lua.Decodes

/-!
# There and back in bytes

What `qwe_lua_to_cbor` returns is read by `qwe_cbor_to_lua`, with its buffers, its iterators
and the Lua stack.
-/

set_option autoImplicit false

namespace Qwe.Lua

open Qwe.Cbor
open Qwe.Redact (Bytes)
open Qwe.Template (bytes)
open Qwe.Tinycbor

/-! ## A document -/

namespace Decode
variable {alloc : Nat → Bool} {put : Nat → Number → Bytes} {get : Nat → Bytes → Number}

variable (alloc) in
/-- What `qwe_cbor_to_lua` ends with on a stack, where `convert` has a result. -/
inductive EndsWith (L : Stack) : Except String Value → Option (Except String Unit × Stack) → Prop where
  | starved (expected : Except String Value) (asked : ∃ k, alloc k = false) :
      EndsWith L expected (some (.error (cbor_error_string .outOfMemory), L))
  | failed (msg : String) : EndsWith L (.error msg) (some (.error msg, L))
  | done (v : Value) : EndsWith L (.ok v) (some (.ok (), L.push (.value v)))

variable (alloc get) in
theorem qwe_cbor_to_lua_of_preparse {text : Bytes} {it : CborValue} (L : Stack)
    (parsed : preparse_value ⟨text, some 1, .invalid, 0, false, false, false, false, false, false⟩ =
      .ok it) :
    qwe_cbor_to_lua alloc get text L =
      match convert alloc get luaMaxDepth it ⟨L, 0⟩ with
      | (.done _, st) => some (.ok (), st.L)
      | (.failed msg, st) => some (.error msg, st.L.settop L.length)
      | (.stuck, _) => none := by
  unfold qwe_cbor_to_lua
  rewrite [ensure_metatables_eq, cbor_parser_init, parsed]
  rfl

variable (alloc) in
theorem qwe_cbor_to_lua_ends {item : Item Number} (fits : ItemFits put get item) (rest : Bytes)
    (L : Stack) :
    EndsWith alloc L (Lua.convert 0 item)
      (qwe_cbor_to_lua alloc get (tokensBytes put item.tokens ++ rest) L) := by
  have start : (CborValue.mk (tokensBytes put item.tokens ++ rest) (some 1) .invalid 0 false false false
      false false false).rest = itemBytes put item ++ rest := rfl
  obtain ⟨it, parsed, same, -⟩ := preparse_item fits start
  have before : Before (itemBytes put item) rest it :=
    ⟨same.rest, looked_again parsed same, by simp [same.remaining]⟩
  have goes : Goes rest it := goes_of_last (same.remaining.trans rfl)
  have meets := convert_meets alloc put get luaMaxDepth 0 (Nat.add_zero _) item rest it ⟨L, 0⟩ fits before
    goes
  have leaves := qwe_cbor_to_lua_leaves alloc get (tokensBytes put item.tokens ++ rest) L
  have top := qwe_cbor_to_lua_of_preparse alloc get L parsed
  -- a call that fails leaves the stack as it was
  have restored {msg : String} {st : State}
      (failed : qwe_cbor_to_lua alloc get (tokensBytes put item.tokens ++ rest) L =
        some (.error msg, st.L.settop L.length)) : st.L.settop L.length = L := by
    rcases leaves with ⟨slot, done⟩ | ⟨msg', failed'⟩
    · rw [done] at failed
      cases failed
    · rw [failed'] at failed
      exact ((Prod.mk.inj (Option.some.inj failed)).2).symm
  generalize Lua.convert 0 item = expected at meets ⊢
  generalize convert alloc get luaMaxDepth it ⟨L, 0⟩ = result at meets top
  cases meets with
  | starved _ st asked =>
      change _ = some (Except.error (cbor_error_string .outOfMemory), st.L.settop L.length) at top
      rw [top, restored top]
      exact .starved _ asked
  | failed msg st =>
      change _ = some (Except.error msg, st.L.settop L.length) at top
      rw [top, restored top]
      exact .failed msg
  | done v asked next =>
      rw [top]
      exact .done v

/-- With memory, the item's value is pushed. -/
theorem qwe_cbor_to_lua_decoded {item : Item Number} {w : Value} (fits : ItemFits put get item)
    (converts : Lua.convert 0 item = .ok w) (rest : Bytes) (L : Stack) :
    qwe_cbor_to_lua (fun _ => true) get (tokensBytes put item.tokens ++ rest) L =
      some (.ok (), L.push (.value w)) := by
  have ends := qwe_cbor_to_lua_ends (fun _ => true) fits rest L
  rw [converts] at ends
  generalize qwe_cbor_to_lua (fun _ => true) get (tokensBytes put item.tokens ++ rest) L = result at ends ⊢
  cases ends with
  | starved _ asked =>
      obtain ⟨k, refused⟩ := asked
      contradiction
  | done => rfl

variable (alloc) in
/-- The decoder reads the bytes of an item, whatever follows them, as `convert` reads the item:
it pushes the same value, or it returns the same message and leaves the stack as it was. -/
theorem qwe_cbor_to_lua_item {item : Item Number} (fits : ItemFits put get item) (rest : Bytes)
    (L : Stack) :
    EndsWith alloc L (cborToLua item.tokens)
      (qwe_cbor_to_lua alloc get (tokensBytes put item.tokens ++ rest) L) := by
  rw [cborToLua_tokens]
  exact qwe_cbor_to_lua_ends alloc fits rest L

/-- `[1, !encrypted "v1", 0.0]` without a count, a second tag behind the secret's, and more
bytes behind the array. -/
theorem qwe_cbor_to_lua_item_array :
    EndsWith (fun _ => true) [.other]
      (.ok (.array [.number (.finite 1), .secret (bytes "v1"), .number (.finite 0)]))
      (qwe_cbor_to_lua (fun _ => true) (fun _ _ => .finite 0)
        (tokensBytes (fun size _ => List.replicate size 0) (Item.array false [.int 1,
          .tag secretTag (.tag 1 (.text (bytes "v1"))), .double (.finite 0)]).tokens ++ [0xff])
        [.other]) := by
  have fits : ItemFits (fun size _ => List.replicate size 0) (fun _ _ => .finite 0)
      (.array false [.int 1, .tag secretTag (.tag 1 (.text (bytes "v1"))), .double (.finite 0)]) :=
    ⟨nofun, by constructor <;> omega, ⟨by decide, by decide, by rw [ItemFits]; decide⟩, ⟨rfl, rfl⟩,
      trivial⟩
  exact qwe_cbor_to_lua_item (fun _ => true) fits [0xff] [.other]

end Decode

/-! ## Values that have bytes -/

section Fits
variable (put : Nat → Number → Bytes) (get : Nat → Bytes → Number)

mutual

/-- What the heads and the counters of tinycbor can hold of a value. -/
def ValueFits : Value → Prop
  | .number d => exactInteger d = none → FloatFits put get 8 d
  | .string s => s.length < 2 ^ 64
  | .table _ sequence fields _ =>
      sequence.length < uint32Max ∧ fields.length ≤ uint32Max / 2 ∧ SequenceFits sequence ∧
        FieldsFit fields
  | _ => True

def SequenceFits : List Value → Prop
  | [] => True
  | v :: rest => ValueFits v ∧ SequenceFits rest

def FieldsFit : List (Bytes × Value) → Prop
  | [] => True
  | (key, v) :: rest => key.length < 2 ^ 64 ∧ ValueFits v ∧ FieldsFit rest

end

variable {put get} {numeral : Number → Bytes}

theorem fieldsFit_iff (fields : List (Bytes × Value)) :
    FieldsFit put get fields ↔ ∀ field ∈ fields, field.1.length < 2 ^ 64 ∧ ValueFits put get field.2 := by
  induction fields with
  | nil => simp [FieldsFit]
  | cons field rest inductionHypothesis =>
      rw [FieldsFit, inductionHypothesis, List.forall_mem_cons, and_assoc]

/-- What `lua_tolstring` makes of a number is no longer than a string can be. -/
def ShortNumerals (numeral : Number → Bytes) : Prop := ∀ n, (numeral n).length < 2 ^ 64

/-- A text that stands for the field of a secret. -/
theorem secretText_short (short : ShortNumerals numeral) {v : Value} {s : Bytes} (fits : ValueFits put get v)
    (text : secretText numeral v = some s) : s.length < 2 ^ 64 := by
  cases v with
  | string s' =>
      cases text
      rw [ValueFits] at fits
      exact fits
  | number n =>
      cases text
      exact short n
  | _ => contradiction

theorem fieldAt_fits {fields : List (Bytes × Value)} (fits : FieldsFit put get fields) (key : Bytes) :
    ValueFits put get (fieldAt fields key) := by
  rw [fieldAt]
  cases found : fields.lookup key with
  | none => trivial
  | some v => exact (((fieldsFit_iff fields).mp fits) (key, v) (mem_of_lookup found)).2

mutual

/-- Every head and every count of what is encoded fits. -/
theorem fits_of_encoded (short : ShortNumerals numeral) (v : Value) {depth : Nat} {item : Item Number}
    (fits : ValueFits put get v) (encodes : encodeValue numeral depth v = .ok item) :
    ItemFits put get item := by
  match v with
  | .nil => contradiction
  | .foreign => contradiction
  | .boolean b =>
      cases encodes
      trivial
  | .number n =>
      rw [ValueFits] at fits
      rw [encodeValue] at encodes
      split at encodes
      · rename_i v exact_
        cases encodes
        have near := (exactInteger_some exact_).2
        have wide : maxExact < 2 ^ 64 := by decide
        exact ⟨by omega, by omega⟩
      · rename_i none_
        cases encodes
        exact fits none_
  | .string s =>
      cases encodes
      exact fits
  | .pointer isNull =>
      rw [encodeValue] at encodes
      split at encodes
      · cases encodes
        trivial
      · contradiction
  | .table mt sequence fields others =>
      rw [ValueFits] at fits
      obtain ⟨fewItems, fewFields, sequenceFits, fieldsFit⟩ := fits
      rw [encodeValue] at encodes
      split at encodes
      · contradiction
      split at encodes
      · split at encodes
        · rename_i s text
          cases encodes
          exact ⟨by decide, secretText_short short (fieldAt_fits fieldsFit _) text⟩
        · contradiction
      · obtain ⟨items, written, rfl⟩ := Except.map_eq_ok encodes
        have count := OnStack.encodeItems_length written
        exact ⟨fun _ => by omega, (itemsFit_iff put get items).mpr
          (fits_of_encodedItems short sequence sequenceFits written)⟩
      · split at encodes
        · contradiction
        obtain ⟨entries, written, rfl⟩ := Except.map_eq_ok encodes
        have count := OnStack.writeEntries_length written
        rw [List.length_mergeSort, List.length_map] at count
        refine ⟨fun _ => by omega, (entriesFit_iff put get entries).mpr ?_⟩
        refine (itemsFit_iff put get _).mpr fun part inside => ?_
        obtain ⟨entry, member, one⟩ := List.mem_flatMap.mp inside
        obtain ⟨key, named, found⟩ := lookup_of_writeEntries written entry member
        obtain ⟨there, item⟩ := fits_of_encodedFields short fields fieldsFit _ _ (mem_of_lookup found)
        rcases List.mem_cons.mp one with rfl | one
        · rw [named]
          exact there
        · rw [List.mem_singleton.mp one]
          exact item

theorem fits_of_encodedItems (short : ShortNumerals numeral) (values : List Value) {depth : Nat}
    {items : List (Item Number)} (fits : SequenceFits put get values)
    (encodes : encodeItems numeral depth values = .ok items) :
    ∀ item ∈ items, ItemFits put get item := by
  match values with
  | [] =>
      cases encodes
      nofun
  | v :: rest =>
      rw [SequenceFits] at fits
      rw [encodeItems] at encodes
      split at encodes
      · contradiction
      rename_i item encoded
      obtain ⟨later, written, rfl⟩ := Except.map_eq_ok encodes
      intro other member
      rcases List.mem_cons.mp member with rfl | member
      · exact fits_of_encoded short v fits.1 encoded
      · exact fits_of_encodedItems short rest fits.2 written other member

theorem fits_of_encodedFields (short : ShortNumerals numeral) (fields : List (Bytes × Value))
    {depth : Nat} (fits : FieldsFit put get fields) (name : Bytes) (item : Item Number)
    (member : (name, .ok item) ∈ encodeFields numeral depth fields) :
    name.length < 2 ^ 64 ∧ ItemFits put get item := by
  match fields with
  | [] => contradiction
  | (key, v) :: rest =>
      rw [FieldsFit] at fits
      rw [encodeFields] at member
      rcases List.mem_cons.mp member with same | member
      · obtain ⟨rfl, encoded⟩ := Prod.mk.inj same
        exact ⟨fits.1, fits_of_encoded short v fits.2.1 encoded.symm⟩
      · exact fits_of_encodedFields short rest fits.2.2 name item member

end

/-- Whatever the encoder returns, the decoder reads, whatever follows it: it is one value, and
the same tree where the value came from CBOR and no key of its tables has a NUL in it. -/
theorem encoded_bytes_decode (short : ShortNumerals numeral) {met : Value → Nat} {v : Value} {L : Stack}
    {idx : Int} {cap : Nat} (fits : ValueFits put get v) (at_ : OnStack.ValueAt L idx v)
    (some_ : 0 < cap) {text : Bytes} {L' : Stack}
    (written : OnStack.Ends put numeral (fun _ => true) met cap L idx (.ok text, L')) :
    ∃ w, (∀ rest L, Decode.qwe_cbor_to_lua (fun _ => true) get (text ++ rest) L =
        some (.ok (), L.push (.value w))) ∧
      ((∃ buf, cborToLua buf = .ok v) → CleanKeys v → v.Same w) := by
  obtain ⟨r, ends, finished⟩ := OnStack.qwe_lua_to_cbor_ends put numeral (fun _ => true) met at_ some_
  obtain rfl := ends.unique written
  have encodes := finished.result
  obtain ⟨tokens, encoded, written'⟩ := Except.map_eq_ok encodes.symm
  obtain ⟨item, encodes', rfl⟩ := Except.map_eq_ok encoded
  obtain rfl : text = tokensBytes put item.tokens := written'.symm
  have itemFits := fits_of_encoded short v fits encodes'
  obtain ⟨w, converted⟩ := converts_of_encoded numeral v encodes'
  refine ⟨w, Decode.qwe_cbor_to_lua_decoded itemFits converted, ?_⟩
  · rintro ⟨buf, from_⟩ clean
    have shallow := shallowSecrets_of_encoded numeral (decoded_of_cborToLua from_) clean encodes'
    obtain ⟨item', encodes'', converted'⟩ :=
      value_returns numeral (decoded_of_cborToLua from_) clean shallow
    rw [encodes'] at encodes''
    cases encodes''
    rw [converted] at converted'
    cases converted'
    exact (norm_norm v).symm

theorem encoded_bytes_decode_sample :
    ∃ text w, sampleValue.Same w ∧ ∀ rest L,
      Decode.qwe_cbor_to_lua (fun _ => true) (fun _ _ => .nan) (text ++ rest) L =
        some (.ok (), L.push (.value w)) := by
  have short : ShortNumerals fun _ => [] := fun _ => Nat.two_pow_pos 64
  have fits : ValueFits (fun _ _ => []) (fun _ _ => .nan) sampleValue :=
    ⟨by decide, by decide, trivial, by decide, ⟨by decide, by decide, ⟨nofun,
      ⟨by decide, by decide, trivial, by decide, by rw [ValueFits]; decide, trivial⟩, trivial⟩, trivial⟩,
      by decide, trivial, trivial⟩
  have at_ : OnStack.ValueAt [.value sampleValue] 1 sampleValue := ⟨Nat.zero_lt_one, rfl⟩
  have from_ : cborToLua sampleBuffer = .ok sampleValue := rfl
  have clean : ∀ key ∈ sampleValue.keys, 0 ∉ key := by decide
  have shallow : ∀ d ∈ sampleValue.secretDepths 0, d < luaMaxDepth := by decide
  obtain ⟨item, encodes, -⟩ := value_returns (fun _ => []) (decoded_of_cborToLua from_) clean shallow
  obtain ⟨⟨result, L⟩, ends, finished⟩ := OnStack.qwe_lua_to_cbor_ends (fun _ _ => []) (fun _ => [])
    (fun _ => true) (fun _ => 0) at_ Nat.zero_lt_one
  have returned := finished.result
  rw [luaToCbor, encodes] at returned
  obtain rfl : result = .ok (tokensBytes (fun _ _ => []) item.tokens) := returned
  obtain ⟨w, decodes, same⟩ := encoded_bytes_decode short fits at_ Nat.zero_lt_one ends
  exact ⟨_, w, same ⟨sampleBuffer, from_⟩ clean, decodes⟩

end Fits

end Qwe.Lua
