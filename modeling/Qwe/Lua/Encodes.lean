import Qwe.Lua.Encode

/-!
# What the encoder does

Whatever the allocations do, an encoder call on the stack either runs out of memory or
does what `encodeValue` says of the value: it writes the bytes of the item, as far as
the buffer goes, or fails with the same message.  Only one message leaves a slot behind.
-/

set_option autoImplicit false

namespace Qwe.Lua.OnStack

open Qwe.Cbor
open Qwe.Redact (Bytes)
open Qwe.Template (bytes)
open Qwe.Tinycbor

/-- The failure that does not clear the stack. -/
def badSecret : String := "a secret needs a string value"

section Outcome
variable (cap : Nat) (alloc : Nat → Bool)

/-- The result of a call after which `text` was asked for. -/
def Exact (rc : Rc) (text : Bytes) : Prop := rc = rcOf (status cap text)

/-- What a loop has seen so far. -/
def Fits (rc : Rc) (text : Bytes) : Prop := rc = .ok ∨ rc = .outOfMemory ∧ cap < text.length

variable (good : Rc → Bytes → Prop) (st : State) (text : Bytes) (taken : Nat)

structure Writes (more : Bytes) (result : Rc × State) : Prop where
  rc : good result.1 (text ++ more)
  L : result.2.L = st.L
  wrote : result.2.enc.out.Wrote cap (text ++ more)
  remaining : result.2.enc.remaining = st.enc.remaining - taken

structure Fails (msg : String) (result : Rc × State) : Prop where
  rc : result.1 = .fail msg
  L : if msg = badSecret then ∃ slot, result.2.L = st.L.push slot else result.2.L = st.L

structure Starves (result : Rc × State) : Prop where
  rc : result.1 = .fail "out of memory"
  L : result.2.L = st.L
  asked : ∃ k, alloc k = false

/-- A call does what is expected, unless an allocation fails. -/
inductive Meets : Except String Bytes → Rc × State → Prop where
  | starved {expected : Except String Bytes} {result : Rc × State}
      (starves : Starves alloc st result) : Meets expected result
  | failed {msg : String} {result : Rc × State} (fails : Fails st msg result) :
      Meets (.error msg) result
  | wrote {more : Bytes} {result : Rc × State} (writes : Writes cap good st text taken more result) :
      Meets (.ok more) result

end Outcome

section Steps
variable {cap : Nat} {alloc : Nat → Bool} {good : Rc → Bytes → Prop} {st : State} {text : Bytes}
variable {taken : Nat} {expected : Except String Bytes} {rc : Rc} {result : Rc × State}

theorem exact_fits (exact_ : Exact cap rc text) : Fits cap rc text := by
  rw [Exact, status] at exact_
  by_cases tooLong : cap < text.length
  · rw [if_pos tooLong] at exact_
    exact Or.inr ⟨exact_, tooLong⟩
  · rw [if_neg tooLong] at exact_
    exact Or.inl exact_

theorem Fits.mono (fits : Fits cap rc text) (more : Bytes) : Fits cap rc (text ++ more) := by
  rcases fits with fine | ⟨short, tooLong⟩
  · exact Or.inl fine
  · refine Or.inr ⟨short, ?_⟩
    rw [List.length_append]
    omega

theorem Fails.frame {st' : State} {msg : String} (same : st'.L = st.L)
    (fails : Fails st' msg result) : Fails st msg result := by
  obtain ⟨failed, left⟩ := fails
  rw [same] at left
  exact ⟨failed, left⟩

theorem Meets.frame {st' : State} (base : st'.L = st.L) (kept : st'.enc = st.enc)
    (meets : Meets cap alloc good st' text taken expected result) :
    Meets cap alloc good st text taken expected result := by
  cases meets with
  | starved starves => exact .starved ⟨starves.rc, starves.L.trans base, starves.asked⟩
  | failed fails => exact .failed (fails.frame base)
  | wrote writes =>
      refine .wrote ⟨writes.rc, writes.L.trans base, writes.wrote, ?_⟩
      rw [writes.remaining, kept]

/-- One call, and what comes after it. -/
def andThen (first later : Except String Bytes) : Except String Bytes :=
  match first with
  | .error msg => .error msg
  | .ok more => later.map (more ++ ·)

/-- The same call, with what was written just before it. -/
theorem Meets.after {enc : CborEncoder} {before : Bytes} {some_ : Nat}
    (remaining : enc.remaining = st.enc.remaining - some_)
    (meets : Meets cap alloc good { st with enc } (text ++ before) taken expected result) :
    Meets cap alloc good st text (some_ + taken) (expected.map (before ++ ·)) result := by
  cases meets with
  | starved starves => exact .starved ⟨starves.rc, starves.L, starves.asked⟩
  | failed fails => exact .failed ⟨fails.rc, fails.L⟩
  | wrote writes =>
      obtain ⟨fits, same, wrote, left⟩ := writes
      rw [List.append_assoc] at fits wrote
      refine .wrote ⟨fits, same, wrote, ?_⟩
      rw [left]
      simp only
      omega

/-- The end of a loop's body, when the rest of the loop does what is expected. -/
theorem onward_meets {slot : Slot} {later : Except String Bytes} {next : Rc → State → Rc × State}
    {count : Nat} (fits : Fits cap rc text)
    (child : Meets cap alloc (Exact cap) { st with L := st.L.push slot } text taken expected result)
    (each : ∀ more rc' st', Fits cap rc' (text ++ more) → st'.L = st.L →
      st'.enc.out.Wrote cap (text ++ more) →
      Meets cap alloc (Fits cap) st' (text ++ more) count later (next rc' st')) :
    Meets cap alloc (Fits cap) st text (taken + count) (andThen expected later)
      (onward rc next result) := by
  obtain ⟨r, st'⟩ := result
  cases child with
  | starved starves =>
      obtain ⟨failed, same, asked⟩ := starves
      cases failed
      refine .starved ⟨rfl, ?_, asked⟩
      change st'.L.pop 1 = st.L
      rw [show st'.L = st.L.push slot from same, Stack.pop_push]
  | failed fails =>
      rename_i msg
      obtain ⟨failed, same⟩ := fails
      cases failed
      refine .failed ⟨rfl, ?_⟩
      change if msg = badSecret then ∃ slot, st'.L.pop 1 = st.L.push slot else st'.L.pop 1 = st.L
      by_cases secret : msg = badSecret
      · rw [if_pos secret] at same ⊢
        obtain ⟨extra, same⟩ := same
        refine ⟨slot, ?_⟩
        rw [show st'.L = (st.L.push slot).push extra from same, Stack.pop_push]
      · rw [if_neg secret] at same ⊢
        rw [show st'.L = st.L.push slot from same, Stack.pop_push]
  | wrote writes =>
      rename_i more
      obtain ⟨exact_, same, wrote, remaining⟩ := writes
      have popped : st'.L.pop 1 = st.L := by
        rw [show st'.L = st.L.push slot from same, Stack.pop_push]
      -- the loop goes on with what it saw before, or with what it sees now
      have goesOn : ∃ rc', Fits cap rc' (text ++ more) ∧
          onward rc next (r, st') = next rc' { st' with L := st'.L.pop 1 } := by
        rcases exact_fits exact_ with fine | ⟨short, tooLong⟩
        · obtain rfl : r = .ok := fine
          exact ⟨rc, fits.mono more, rfl⟩
        · obtain rfl : r = .outOfMemory := short
          exact ⟨.outOfMemory, Or.inr ⟨rfl, tooLong⟩, rfl⟩
      obtain ⟨rc', fits', same'⟩ := goesOn
      rw [same']
      cases each more rc' { st' with L := st'.L.pop 1 } fits' popped wrote with
      | starved starves => exact .starved ⟨starves.rc, starves.L.trans popped, starves.asked⟩
      | failed fails => exact .failed (fails.frame popped)
      | wrote writes =>
          obtain ⟨fine, same'', wrote', left⟩ := writes
          rw [List.append_assoc] at fine wrote'
          refine .wrote ⟨fine, same''.trans popped, wrote', ?_⟩
          rw [left, remaining]
          simp only
          omega

end Steps

/-! ## The loops -/

section Loops
variable {cap : Nat} {put : Nat → Number → Bytes} {numeral : Number → Bytes} {alloc : Nat → Bool}
variable {depth : Nat}

theorem tokensBytes_append (first later : List (Token Number)) :
    tokensBytes put (first ++ later) = tokensBytes put first ++ tokensBytes put later :=
  List.flatMap_append

theorem tokensBytes_singleton (token : Token Number) : tokensBytes put [token] = tokenBytes put token :=
  List.flatMap_singleton ..

variable (put numeral)

/-- What `encode_value` is to write. -/
def valueBytes (depth : Nat) (v : Value) : Except String Bytes :=
  (encodeValue numeral depth v).map fun item => tokensBytes put item.tokens

theorem valueBytes_eq (v : Value) :
    valueBytes put numeral 0 v = (luaToCbor numeral v).map (tokensBytes put) := by
  rw [valueBytes, luaToCbor]
  cases encodeValue numeral 0 v <;> rfl

def elementsBytes (depth : Nat) (sequence : List Value) : Except String Bytes :=
  (encodeItems numeral depth sequence).map fun items => tokensBytes put (itemsTokens items)

def namesBytes (depth : Nat) (fields : List (Bytes × Value)) (keys : List Bytes) :
    Except String Bytes :=
  (writeEntries (encodeFields numeral depth fields) keys).map fun entries =>
    tokensBytes put (entriesTokens entries)

variable {put numeral}

theorem elementsBytes_cons (v : Value) (rest : List Value) :
    elementsBytes put numeral depth (v :: rest) =
      andThen (valueBytes put numeral depth v) (elementsBytes put numeral depth rest) := by
  rw [elementsBytes, encodeItems, valueBytes]
  cases encodeValue numeral depth v with
  | error msg => rfl
  | ok item =>
      rw [elementsBytes]
      cases encodeItems numeral depth rest with
      | error msg => rfl
      | ok items =>
          change Except.ok (tokensBytes put (item.tokens ++ itemsTokens items)) = _
          rw [tokensBytes_append]
          rfl

/-- A key that is not there any more finds nil. -/
theorem encodeFields_lookup (fields : List (Bytes × Value)) (key : Bytes) :
    ((encodeFields numeral depth fields).lookup key).getD (.error "cannot encode this Lua type") =
      encodeValue numeral depth (fieldAt fields key) := by
  induction fields with
  | nil => rw [encodeFields, fieldAt, List.lookup_nil, List.lookup_nil]; rfl
  | cons entry fields inductionHypothesis =>
      obtain ⟨name, v⟩ := entry
      rw [encodeFields, fieldAt, List.lookup_cons, List.lookup_cons]
      by_cases same : key = name
      · rw [beq_iff_eq.mpr same]
        rfl
      · rw [beq_false_of_ne same]
        exact inductionHypothesis

theorem namesBytes_cons (fields : List (Bytes × Value)) (key : Bytes) (keys : List Bytes) :
    namesBytes put numeral depth fields (key :: keys) =
      (andThen (valueBytes put numeral depth (fieldAt fields (cString key)))
        (namesBytes put numeral depth fields keys)).map
          (tokenBytes put (.text (cString key)) ++ ·) := by
  rw [namesBytes, writeEntries, encodeFields_lookup, valueBytes]
  cases encodeValue numeral depth (fieldAt fields (cString key)) with
  | error msg => rfl
  | ok item =>
      rw [namesBytes]
      cases writeEntries (encodeFields numeral depth fields) keys with
      | error msg => rfl
      | ok entries =>
          change Except.ok (tokensBytes put ([.text (cString key)] ++ item.tokens ++
            entriesTokens entries)) = Except.ok (tokenBytes put (.text (cString key)) ++
              (tokensBytes put item.tokens ++ tokensBytes put (entriesTokens entries)))
          rw [tokensBytes_append, tokensBytes_append, List.append_assoc, tokensBytes_singleton]

variable {value : Nat → State → Rc × State}

/-- `encode_value` one level down does what is expected of it. -/
def EachMeets (cap : Nat) (put : Nat → Number → Bytes) (numeral : Number → Bytes)
    (alloc : Nat → Bool) (depth : Nat) (value : Nat → State → Rc × State) : Prop :=
  ∀ idx st v text, st.L.slot idx = some (.value v) → st.enc.out.Wrote cap text →
    Meets cap alloc (Exact cap) st text 1 (valueBytes put numeral depth v) (value idx st)

theorem encodeElements_meets (each : EachMeets cap put numeral alloc depth value)
    (sequence : List Value) : ∀ rc st text, Fits cap rc text → st.enc.out.Wrote cap text →
      Meets cap alloc (Fits cap) st text sequence.length (elementsBytes put numeral depth sequence)
        (encodeElements value sequence rc st) := by
  induction sequence with
  | nil =>
      intro rc st text fits wrote
      rw [← List.append_nil text] at fits wrote
      exact .wrote ⟨fits, rfl, wrote, rfl⟩
  | cons v rest inductionHypothesis =>
      intro rc st text fits wrote
      rw [elementsBytes_cons, List.length_cons, Nat.add_comm]
      refine onward_meets fits (each _ _ v text Stack.slot_push_length wrote) ?_
      intro more rc' st' fits' _ wrote'
      exact inductionHypothesis rc' st' (text ++ more) fits' wrote'

theorem encodeNames_meets (each : EachMeets cap put numeral alloc depth value)
    (fields : List (Bytes × Value)) (keys : List Bytes) :
    ∀ rc st text, Fits cap rc text → st.enc.out.Wrote cap text →
      Meets cap alloc (Fits cap) st text (2 * keys.length)
        (namesBytes put numeral depth fields keys) (encodeNames cap value fields keys rc st) := by
  induction keys with
  | nil =>
      intro rc st text fits wrote
      rw [← List.append_nil text] at fits wrote
      exact .wrote ⟨fits, rfl, wrote, rfl⟩
  | cons key keys inductionHypothesis =>
      intro rc st text fits wrote
      obtain ⟨wrote', err, remaining⟩ := cbor_encode_text_string_puts put wrote (cString key)
      rw [namesBytes_cons, encodeNames, List.length_cons,
        show 2 * (keys.length + 1) = 1 + (1 + 2 * keys.length) by omega]
      simp only [Stack.pop_push]
      refine Meets.after remaining (onward_meets ?_
        (each _ _ _ _ Stack.slot_push_length wrote') ?_)
      · rw [err, status]
        by_cases tooLong : cap < (text ++ tokenBytes put (.text (cString key))).length
        · rw [if_pos tooLong, if_pos rfl]
          exact Or.inr ⟨rfl, tooLong⟩
        · rw [if_neg tooLong, if_neg (by decide)]
          exact fits.mono _
      · intro more rc' st' fits' _ wrote''
        exact inductionHypothesis rc' st' _ fits' wrote''

/-- The keys of the fields are collected, whatever comes after them. -/
theorem collect_strings (alloc : Nat → Bool) (fields : List (Bytes × Value))
    (tail : List (Slot × Slot)) (base : Stack) :
    ∀ keys room st slot, st.L = base.push slot →
      (∃ st', collect alloc (fields.map (fun entry => (Slot.value (.string entry.1),
          Slot.value entry.2)) ++ tail) keys room st = (.error "out of memory", st') ∧
        st'.L = base ∧ st'.enc = st.enc ∧ ∃ k, alloc k = false) ∨
      ∃ room' st' slot', collect alloc (fields.map (fun entry => (Slot.value (.string entry.1),
          Slot.value entry.2)) ++ tail) keys room st =
            collect alloc tail (keys ++ fields.map (·.1)) room' st' ∧
        st'.L = base.push slot' ∧ st'.enc = st.enc := by
  induction fields with
  | nil =>
      intro keys room st slot at_
      refine Or.inr ⟨room, st, slot, ?_, at_, rfl⟩
      rw [List.map_nil, List.map_nil, List.nil_append, List.append_nil]
  | cons entry fields inductionHypothesis =>
      intro keys room st slot at_
      rw [List.map_cons, List.map_cons, List.cons_append, collect, at_]
      simp only [Stack.pop_push, Stack.fromTop_push]
      rw [show keys ++ entry.1 :: fields.map (·.1) = (keys ++ [entry.1]) ++ fields.map (·.1) by
        rw [List.append_assoc, List.singleton_append]]
      by_cases full : keys.length = room
      · rw [if_pos full]
        by_cases granted : alloc st.asked = true
        · rw [if_pos granted]
          exact inductionHypothesis _ _ _ _ rfl
        · rw [if_neg granted]
          exact Or.inl ⟨_, rfl, rfl, rfl, st.asked, Bool.eq_false_iff.mpr granted⟩
      · rw [if_neg full]
        exact inductionHypothesis _ _ _ _ rfl

/-! ## Tables -/

theorem close_meets {inner outer : CborEncoder} {st : State} {text : Bytes} {n : Nat}
    {expected : Except String Bytes} {result : Rc × State} (complete : inner.remaining = n + 1)
    (meets : Meets cap alloc (Fits cap) { st with enc := inner } text n expected result) :
    Meets cap alloc (Exact cap) { st with enc := outer } text 0 expected
      (close outer result.1 result.2) := by
  obtain ⟨rc, st'⟩ := result
  cases meets with
  | starved starves =>
      obtain ⟨failed, same, asked⟩ := starves
      cases failed
      exact .starved ⟨rfl, same, asked⟩
  | failed fails =>
      obtain ⟨failed, left⟩ := fails
      cases failed
      exact .failed ⟨rfl, left⟩
  | wrote writes =>
      rename_i more
      obtain ⟨fits, same, wrote, remaining⟩ := writes
      have one : st'.enc.remaining = 1 := by
        rw [show st'.enc.remaining = inner.remaining - n from remaining]
        omega
      obtain ⟨wrote', err, left⟩ := cbor_encoder_close_container_puts outer wrote one
      have closed : close outer rc st' = (rcOf (cbor_encoder_close_container outer st'.enc).2,
          { st' with enc := (cbor_encoder_close_container outer st'.enc).1 }) := by
        rcases fits with fine | ⟨short, tooLong⟩
        · obtain rfl : rc = .ok := fine
          change (if (cbor_encoder_close_container outer st'.enc).2 = .outOfMemory ∨
              Rc.ok = .outOfMemory then Rc.outOfMemory
            else if (cbor_encoder_close_container outer st'.enc).2 = .noError then .ok
            else .fail "cannot encode value", _) = _
          rw [err, status]
          by_cases tooLong : cap < (text ++ more).length
          · rw [if_pos tooLong, if_pos (Or.inl rfl)]
            rfl
          · rw [if_neg tooLong, if_neg (by decide), if_pos rfl]
            rfl
        · obtain rfl : rc = .outOfMemory := short
          change (if (cbor_encoder_close_container outer st'.enc).2 = .outOfMemory ∨
              Rc.outOfMemory = .outOfMemory then Rc.outOfMemory else _, _) = _
          rw [if_pos (Or.inr rfl), err, status, if_pos tooLong]
          rfl
      rw [closed]
      exact .wrote ⟨congrArg rcOf err, same, wrote', left⟩

/-- A slot below what the call leaves is taken away behind it. -/
theorem Meets.remove (st : State) (slot : Slot) {good : Rc → Bytes → Prop} {text : Bytes} {n : Nat}
    {expected : Except String Bytes} {result : Rc × State}
    (meets : Meets cap alloc good { st with L := st.L.push slot } text n expected result) :
    Meets cap alloc good st text n expected
      (result.1, { result.2 with L := result.2.L.remove (st.L.push slot).length }) := by
  cases meets with
  | starved starves =>
      refine .starved ⟨starves.rc, ?_, starves.asked⟩
      change result.2.L.remove _ = _
      rw [starves.L, Stack.remove_push]
  | failed fails =>
      rename_i msg
      obtain ⟨failed, left⟩ := fails
      refine .failed ⟨failed, ?_⟩
      by_cases secret : msg = badSecret
      · rw [if_pos secret] at left ⊢
        obtain ⟨extra, same⟩ := left
        refine ⟨extra, ?_⟩
        change result.2.L.remove _ = _
        rw [same, Stack.remove_push_push]
      · rw [if_neg secret] at left ⊢
        change result.2.L.remove _ = _
        rw [left, Stack.remove_push]
  | wrote writes =>
      refine .wrote ⟨writes.rc, ?_, writes.wrote, writes.remaining⟩
      change result.2.L.remove _ = _
      rw [writes.L, Stack.remove_push]

theorem encodeItems_length {sequence : List Value} {items : List (Item Number)}
    (encodes : encodeItems numeral depth sequence = .ok items) : items.length = sequence.length := by
  induction sequence generalizing items with
  | nil =>
      cases encodes
      rfl
  | cons v rest inductionHypothesis =>
      rw [encodeItems] at encodes
      cases first : encodeValue numeral depth v with
      | error msg =>
          rw [first] at encodes
          contradiction
      | ok item =>
          rw [first] at encodes
          obtain ⟨later, same, rfl⟩ := Except.map_eq_ok encodes
          rw [List.length_cons, List.length_cons, inductionHypothesis same]

theorem writeEntries_length {encoded : List (Bytes × Except String (Item Number))}
    {keys : List Bytes} {entries : List (Item Number × Item Number)}
    (written : writeEntries encoded keys = .ok entries) : entries.length = keys.length := by
  induction keys generalizing entries with
  | nil =>
      cases written
      rfl
  | cons key keys inductionHypothesis =>
      rw [writeEntries] at written
      split at written
      · contradiction
      · obtain ⟨later, same, rfl⟩ := Except.map_eq_ok written
        rw [List.length_cons, List.length_cons, inductionHypothesis same]

theorem array_tokens (items : List (Item Number)) :
    (Item.array true items).tokens = .array (some items.length) :: itemsTokens items :=
  congrArg (_ :: ·) (List.append_nil _)

theorem map_tokens (entries : List (Item Number × Item Number)) :
    (Item.map true entries).tokens = .map (some entries.length) :: entriesTokens entries :=
  congrArg (_ :: ·) (List.append_nil _)

theorem encode_array_meets (each : EachMeets cap put numeral alloc depth value)
    (sequence : List Value) {st : State} {text : Bytes} (wrote : st.enc.out.Wrote cap text) :
    Meets cap alloc (Exact cap) st text 1
      (((encodeItems numeral depth sequence).map (Item.array true)).map fun item =>
        tokensBytes put item.tokens) (encode_array cap value sequence st) := by
  obtain ⟨wrote', err, complete, remaining⟩ :=
    create_container_puts wrote sequence.length (sequence.length + 1) 4
  have bytes_ : (((encodeItems numeral depth sequence).map (Item.array true)).map fun item =>
      tokensBytes put item.tokens) =
        (elementsBytes put numeral depth sequence).map (head 4 sequence.length ++ ·) := by
    rw [elementsBytes]
    cases encodes : encodeItems numeral depth sequence with
    | error msg => rfl
    | ok items =>
        change Except.ok (tokensBytes put (Item.array true items).tokens) = _
        rw [array_tokens, ← encodeItems_length encodes]
        rfl
  rw [bytes_]
  have elements := encodeElements_meets each sequence _ { st with enc := _ } _
    (exact_fits (congrArg rcOf err)) wrote'
  exact Meets.after remaining (close_meets complete elements)

theorem namesBytes_map (fields : List (Bytes × Value)) (keys : List Bytes) :
    ((writeEntries (encodeFields numeral depth fields) keys).map (Item.map true)).map
        (fun item => tokensBytes put item.tokens) =
      (namesBytes put numeral depth fields keys).map (head 5 keys.length ++ ·) := by
  rw [namesBytes]
  cases written : writeEntries (encodeFields numeral depth fields) keys with
  | error msg => rfl
  | ok entries =>
      change Except.ok (tokensBytes put (Item.map true entries).tokens) = _
      rw [map_tokens, ← writeEntries_length written]
      rfl

variable {met : Value → Nat}

theorem visited_strings (mt : Metatable) (fields : List (Bytes × Value)) :
    visited met (.table mt [] fields false) =
      fields.map (fun entry => (Slot.value (.string entry.1), Slot.value entry.2)) ++ [] := by
  rw [visited, if_neg (by simp), List.append_nil]

theorem visited_others {mt : Metatable} {sequence : List Value} {fields : List (Bytes × Value)}
    {others : Bool} (strays : sequence.length > 0 ∨ others = true) :
    visited met (.table mt sequence fields others) =
      (fields.take (met (.table mt sequence fields others))).map
        (fun entry => (Slot.value (.string entry.1), Slot.value entry.2)) ++ [(.other, .other)] := by
  rw [visited, if_pos strays, List.map_take]

/-- What `encode_table` is to write of a map. -/
def mapBytes (put : Nat → Number → Bytes) (numeral : Number → Bytes) (depth : Nat)
    (sequence : List Value) (fields : List (Bytes × Value)) (others : Bool) : Except String Bytes :=
  if sequence.length > 0 ∨ others then .error "map key is not a string"
  else ((writeEntries (encodeFields numeral depth fields)
    ((fields.map (·.1)).mergeSort keyLe)).map (Item.map true)).map fun item =>
      tokensBytes put item.tokens

variable (alloc met) in
/-- The keys of a table are its strings, unless there are others. -/
theorem collectKeys_cases (mt : Metatable) (sequence : List Value) (fields : List (Bytes × Value))
    (others : Bool) (st : State) :
    (collectKeys alloc met (.table mt sequence fields others) st).2.L = st.L ∧
      (collectKeys alloc met (.table mt sequence fields others) st).2.enc = st.enc ∧
      ((collectKeys alloc met (.table mt sequence fields others) st).1 = .error "out of memory" ∧
          (∃ k, alloc k = false) ∨
        (collectKeys alloc met (.table mt sequence fields others) st).1 =
          if sequence.length > 0 ∨ others then .error "map key is not a string"
          else .ok (fields.map (·.1))) := by
  unfold collectKeys
  by_cases granted : alloc st.asked = true
  swap
  · rw [if_neg granted]
    exact ⟨rfl, rfl, Or.inl ⟨rfl, st.asked, Bool.eq_false_iff.mpr granted⟩⟩
  rw [if_pos granted]
  by_cases strays : sequence.length > 0 ∨ others = true
  · rw [if_pos strays, visited_others strays]
    rcases collect_strings alloc (fields.take (met (.table mt sequence fields others)))
        [(.other, .other)] st.L [] 8 { st with L := st.L.push (.value .nil), asked := st.asked + 1 }
        (.value .nil) rfl with
      ⟨st', same, base, kept, asked⟩ | ⟨room', st', slot, same, base, kept⟩
    · rw [same]
      exact ⟨base, kept, Or.inl ⟨rfl, asked⟩⟩
    · rw [same, collect, base]
      simp only [Stack.pop_push, Stack.fromTop_push]
      exact ⟨trivial, kept, Or.inr trivial⟩
  · obtain ⟨empty, rfl⟩ : sequence.length = 0 ∧ others = false := by
      constructor
      · omega
      · simpa using fun other => strays (Or.inr other)
    obtain rfl := List.length_eq_zero_iff.mp empty
    rw [if_neg strays, visited_strings]
    rcases collect_strings alloc fields [] st.L [] 8
        { st with L := st.L.push (.value .nil), asked := st.asked + 1 } (.value .nil) rfl with
      ⟨st', same, base, kept, asked⟩ | ⟨room', st', slot, same, base, kept⟩
    · rw [same]
      exact ⟨base, kept, Or.inl ⟨rfl, asked⟩⟩
    · rw [same, collect, base]
      simp only [Stack.pop_push]
      exact ⟨trivial, kept, Or.inr rfl⟩

theorem encodeKeys_meets (each : EachMeets cap put numeral alloc depth value)
    (fields : List (Bytes × Value)) (keys : List Bytes) {st : State} {text : Bytes}
    (wrote : st.enc.out.Wrote cap text) :
    Meets cap alloc (Exact cap) st text 1
      (((writeEntries (encodeFields numeral depth fields) keys).map (Item.map true)).map fun item =>
        tokensBytes put item.tokens) (encodeKeys cap value fields keys st) := by
  obtain ⟨wrote', err, complete, remaining⟩ :=
    create_container_puts wrote keys.length (keys.length + 1 + keys.length) 5
  rw [namesBytes_map]
  have names := encodeNames_meets each fields keys _ { st with L := st.L.push .block, enc := _ } _
    (exact_fits (congrArg rcOf err)) wrote'
  have complete' : _ = 2 * keys.length + 1 := complete.trans (by omega)
  exact Meets.after remaining (close_meets complete' (Meets.remove { st with enc := _ } .block names))

theorem encode_map_meets (each : EachMeets cap put numeral alloc depth value) {mt : Metatable}
    {sequence : List Value} {fields : List (Bytes × Value)} {others : Bool} {st : State}
    {text : Bytes} (wrote : st.enc.out.Wrote cap text) :
    Meets cap alloc (Exact cap) st text 1 (mapBytes put numeral depth sequence fields others)
      (encode_map cap alloc met value (.table mt sequence fields others) fields st) := by
  obtain ⟨base, kept, which⟩ := collectKeys_cases alloc met mt sequence fields others st
  rw [encode_map, mapBytes]
  generalize collectKeys alloc met (.table mt sequence fields others) st = collected at *
  obtain ⟨keys, st'⟩ := collected
  rcases which with ⟨short, asked⟩ | found
  · obtain rfl : keys = .error "out of memory" := short
    exact .starved ⟨rfl, base, asked⟩
  · by_cases strays : sequence.length > 0 ∨ others = true
    · rw [if_pos strays] at found ⊢
      obtain rfl : keys = .error "map key is not a string" := found
      refine .failed ⟨rfl, ?_⟩
      rw [if_neg (by decide)]
      exact base
    · rw [if_neg strays] at found ⊢
      obtain rfl : keys = .ok (fields.map (·.1)) := found
      have wrote' : st'.enc.out.Wrote cap text := (show st'.enc = st.enc from kept) ▸ wrote
      exact Meets.frame base kept
        (encodeKeys_meets each fields ((fields.map (·.1)).mergeSort keyLe) wrote')

theorem encode_secret_meets (fields : List (Bytes × Value)) {st : State} {text : Bytes}
    (wrote : st.enc.out.Wrote cap text) :
    Meets cap alloc (Exact cap) st text 1
      ((match secretText numeral (fieldAt fields (bytes "value")) with
        | some s => .ok (.tag secretTag (.text s))
        | none => .error "a secret needs a string value" : Except String (Item Number)).map
          fun item => tokensBytes put item.tokens) (encode_secret cap numeral fields st) := by
  unfold encode_secret
  cases secretText numeral (fieldAt fields (bytes "value")) with
  | none =>
      refine .failed ⟨rfl, ?_⟩
      rw [badSecret, if_pos rfl]
      exact ⟨_, rfl⟩
  | some s =>
      obtain ⟨tagged, err, remaining⟩ := cbor_encode_tag_puts put wrote secretTag
      obtain ⟨wrote', err', remaining'⟩ := cbor_encode_text_string_puts put tagged s
      have goesOn : (cbor_encode_tag cap st.enc secretTag).2 = .noError ∨
          (cbor_encode_tag cap st.enc secretTag).2 = .outOfMemory := by
        rw [err, status]
        split
        · exact Or.inr rfl
        · exact Or.inl rfl
      have bytes_ : tokensBytes put (Item.tag secretTag (.text s)).tokens =
          tokenBytes put (.tag secretTag) ++ tokenBytes put (.text s) := by
        rw [show (Item.tag secretTag (.text s)).tokens = [.tag secretTag] ++ [Token.text s] from rfl,
          tokensBytes_append, tokensBytes_singleton, tokensBytes_singleton]
      simp only [if_pos goesOn, Stack.pop_push]
      rw [List.append_assoc, ← bytes_] at wrote' err'
      exact .wrote ⟨congrArg rcOf err', rfl, wrote', remaining'.trans (congrArg (· - 1) remaining)⟩

theorem classify_eq (L : Stack) (mt : Metatable) (sequence : List Value) :
    classify L mt sequence = (Lua.classify mt sequence, L) := by
  cases mt with
  | none => rfl
  | _ =>
      unfold classify
      simp only [Stack.rawequal_push, Stack.pop_push, Stack.pop_two_push]
      rfl

theorem leaf_meets {st : State} {text : Bytes} {token : Token Number}
    {called : CborEncoder × CborError} (puts : Puts cap st.enc text (tokenBytes put token) 1 called) :
    Meets cap alloc (Exact cap) st text 1 (.ok (tokensBytes put [token])) (leaf st called) := by
  rw [tokensBytes_singleton]
  exact .wrote ⟨congrArg rcOf puts.err, rfl, puts.wrote, puts.remaining⟩

theorem fails_meets {st : State} {text : Bytes} {msg : String} (other : msg ≠ badSecret) :
    Meets cap alloc (Exact cap) st text 1 (.error msg) (.fail msg, st) := by
  refine .failed ⟨rfl, ?_⟩
  rw [if_neg other]

variable (put numeral) in
/-- What one level down is expected of the encoder. -/
def LevelMeets (cap : Nat) (alloc : Nat → Bool) (depth : Nat) :
    Option (Nat → State → Rc × State) → Prop
  | none => depth ≥ luaMaxDepth
  | some value => depth < luaMaxDepth ∧ EachMeets cap put numeral alloc (depth + 1) value

theorem encode_table_meets {level : Option (Nat → State → Rc × State)}
    (levels : LevelMeets put numeral cap alloc depth level) (mt : Metatable)
    (sequence : List Value) (fields : List (Bytes × Value)) (others : Bool) {st : State}
    {text : Bytes} (wrote : st.enc.out.Wrote cap text) :
    Meets cap alloc (Exact cap) st text 1
      (valueBytes put numeral depth (.table mt sequence fields others))
      (encode_table cap numeral alloc met level (.table mt sequence fields others) mt sequence
        fields st) := by
  rw [valueBytes, encodeValue, encode_table, classify_eq]
  cases level with
  | none =>
      have deep : depth ≥ luaMaxDepth := levels
      rw [if_pos deep]
      exact fails_meets (by decide)
  | some value =>
      obtain ⟨shallow, each⟩ := levels
      rw [if_neg (Nat.not_le_of_lt shallow)]
      cases Lua.classify mt sequence with
      | secret => exact encode_secret_meets fields wrote
      | array =>
          exact encode_array_meets each sequence wrote
      | map =>
          have meets : Meets cap alloc (Exact cap) st text 1 _
            (encode_map cap alloc met value (.table mt sequence fields others) fields st) :=
            encode_map_meets each wrote
          by_cases strays : sequence.length > 0 ∨ others = true
          · rw [mapBytes, if_pos strays] at meets
            simp only [if_pos strays]
            exact meets
          · rw [mapBytes, if_neg strays] at meets
            simp only [if_neg strays]
            exact meets

/-- The value at an index goes into the buffer. -/
theorem encodeAt_meets (level : Option (Nat → State → Rc × State))
    (levels : LevelMeets put numeral cap alloc depth level) {idx : Nat} {v : Value} {st : State}
    {text : Bytes} (there : st.L.slot idx = some (.value v)) (wrote : st.enc.out.Wrote cap text) :
    Meets cap alloc (Exact cap) st text 1 (valueBytes put numeral depth v)
      (encodeAt cap put numeral alloc met level idx st) := by
  rw [encodeAt, there]
  cases v with
  | nil => exact fails_meets (by decide)
  | foreign => exact fails_meets (by decide)
  | boolean b => exact leaf_meets (cbor_encode_boolean_puts put wrote b)
  | string s => exact leaf_meets (cbor_encode_text_string_puts put wrote s)
  | number d =>
      rw [valueBytes, encodeValue]
      cases whole : exactInteger d with
      | some v =>
          simp only [whole]
          exact leaf_meets (cbor_encode_int_puts put wrote v)
      | none =>
          simp only [whole]
          exact leaf_meets (cbor_encode_double_puts put wrote d)
  | pointer isNull =>
      rw [valueBytes, encodeValue]
      cases isNull with
      | true => exact leaf_meets (cbor_encode_null_puts put wrote)
      | false => exact fails_meets (by decide)
  | table mt sequence fields others =>
      exact encode_table_meets levels mt sequence fields others wrote

/-- Every level of `encode_value` does what `encodeValue` says at its depth. -/
theorem encode_value_meets (cap : Nat) (put : Nat → Number → Bytes) (numeral : Number → Bytes)
    (alloc : Nat → Bool) (met : Value → Nat) (room : Nat) {depth : Nat}
    (left : depth + room = luaMaxDepth) :
    EachMeets cap put numeral alloc depth (encode_value cap put numeral alloc met room) := by
  induction room generalizing depth with
  | zero =>
      intro idx st v text there wrote
      exact encodeAt_meets none (show depth ≥ luaMaxDepth by omega) there wrote
  | succ room inductionHypothesis =>
      intro idx st v text there wrote
      have deeper : EachMeets cap put numeral alloc (depth + 1) _ :=
        inductionHypothesis (by omega)
      exact encodeAt_meets (some _) ⟨by omega, deeper⟩ there wrote

end Loops

end Qwe.Lua.OnStack
