import Qwe.Lua.Retries
import Qwe.Lua.Decode

/-!
# What the conversions leave on the Lua stack

Decoding leaves one value or nothing.  Encoding leaves the stack as it was, except where
the first thing that cannot be encoded is a secret without a text: what was found in its
place stays on the stack.
-/

set_option autoImplicit false

namespace Qwe.Lua

open Qwe.Cbor (Token Item)
open Qwe.Redact (Bytes)
open Qwe.Template (bytes)

/-! ## The first obstacle -/

/-- What there may be in a value that cannot be encoded. -/
inductive Obstacle where
  /-- a table inside as many tables as there may be -/
  | nesting
  /-- a map with a key that is no string -/
  | key
  | userdata
  /-- a value of a type that CBOR has no item for -/
  | type
  /-- a secret whose `value` is neither a string nor a number -/
  | secret
deriving DecidableEq, Repr

def Obstacle.message : Obstacle → String
  | .nesting => "nesting too deep"
  | .key => "map key is not a string"
  | .userdata => "cannot encode this userdata"
  | .type => "cannot encode this Lua type"
  | .secret => "a secret needs a string value"

/-- The first obstacle in the values of the keys, which are looked up as C strings. -/
def firstObstacle (found : List (Bytes × Option Obstacle)) : List Bytes → Option Obstacle
  | [] => none
  | key :: keys =>
      ((found.lookup (cString key)).getD (some .type)).or (firstObstacle found keys)

mutual

/-- The first obstacle in a value at a depth: elements are taken in their order, the
fields of a map in the order of their keys. -/
def obstacle (depth : Nat) : Value → Option Obstacle
  | .boolean _ => none
  | .number _ => none
  | .string _ => none
  | .pointer isNull => if isNull then none else some .userdata
  | .nil => some .type
  | .foreign => some .type
  | .table mt sequence fields others =>
      if depth ≥ luaMaxDepth then some .nesting
      else
        match classify mt sequence with
        | .secret =>
            match fieldAt fields (bytes "value") with
            | .string _ => none
            | .number _ => none
            | _ => some .secret
        | .array => obstacleItems (depth + 1) sequence
        | .map =>
            if sequence.length > 0 ∨ others then some .key
            else firstObstacle (obstacleFields (depth + 1) fields)
              ((fields.map (·.1)).mergeSort keyLe)

def obstacleItems (depth : Nat) : List Value → Option Obstacle
  | [] => none
  | v :: rest => (obstacle depth v).or (obstacleItems depth rest)

def obstacleFields (depth : Nat) : List (Bytes × Value) → List (Bytes × Option Obstacle)
  | [] => []
  | (key, v) :: rest => (key, obstacle depth v) :: obstacleFields depth rest

end

def errorOf {α : Type} : Except String α → Option String
  | .error msg => some msg
  | .ok _ => none

theorem errorOf_map {α β : Type} (x : Except String α) (f : α → β) : errorOf (x.map f) = errorOf x := by
  cases x <;> rfl

section Encode
variable (numeral : Number → Bytes)

theorem errorOf_writeEntries {encoded : List (Bytes × Except String (Item Number))}
    {found : List (Bytes × Option Obstacle)}
    (alike : ∀ key, errorOf ((encoded.lookup key).getD (.error "cannot encode this Lua type")) =
      ((found.lookup key).getD (some .type)).map Obstacle.message) (keys : List Bytes) :
    errorOf (writeEntries encoded keys) = (firstObstacle found keys).map Obstacle.message := by
  induction keys with
  | nil => rfl
  | cons key keys inductionHypothesis =>
      have first := alike (cString key)
      rw [writeEntries, firstObstacle]
      generalize (encoded.lookup (cString key)).getD (.error "cannot encode this Lua type") = result
        at first ⊢
      generalize (found.lookup (cString key)).getD (some .type) = seen at first ⊢
      cases seen with
      | none =>
          cases result with
          | error msg => contradiction
          | ok item =>
              dsimp only
              rw [errorOf_map, inductionHypothesis, Option.none_or]
      | some o =>
          cases result with
          | error msg => exact first
          | ok item => contradiction

theorem lookup_alike {encoded : List (Bytes × Except String (Item Number))}
    {found : List (Bytes × Option Obstacle)}
    (alike : encoded.map (fun entry => (entry.1, errorOf entry.2)) =
      found.map fun entry => (entry.1, entry.2.map Obstacle.message)) (key : Bytes) :
    errorOf ((encoded.lookup key).getD (.error "cannot encode this Lua type")) =
      ((found.lookup key).getD (some .type)).map Obstacle.message := by
  induction encoded generalizing found with
  | nil =>
      obtain rfl : found = [] := by simpa using alike.symm
      rfl
  | cons entry encoded inductionHypothesis =>
      cases found with
      | nil => contradiction
      | cons seen found =>
          obtain ⟨name, result⟩ := entry
          obtain ⟨name', o⟩ := seen
          simp only [List.map_cons, List.cons.injEq, Prod.mk.injEq] at alike
          obtain ⟨⟨rfl, same⟩, later⟩ := alike
          rw [List.lookup_cons, List.lookup_cons]
          cases key == name with
          | true => exact same
          | false => exact inductionHypothesis later

mutual

/-- The encoder fails at the first obstacle, if there is one. -/
theorem errorOf_encodeValue (v : Value) (depth : Nat) :
    errorOf (encodeValue numeral depth v) = (obstacle depth v).map Obstacle.message := by
  match v with
  | .boolean b => rfl
  | .number d =>
      rw [encodeValue]
      cases exactInteger d <;> rfl
  | .string s => rfl
  | .pointer isNull => cases isNull <;> rfl
  | .nil => rfl
  | .foreign => rfl
  | .table mt sequence fields others =>
      rw [encodeValue, obstacle]
      by_cases deep : depth ≥ luaMaxDepth
      · rw [if_pos deep, if_pos deep]
        rfl
      rw [if_neg deep, if_neg deep]
      cases classify mt sequence with
      | secret => cases fieldAt fields (bytes "value") <;> rfl
      | array =>
          dsimp only
          rw [errorOf_map, errorOf_encodeItems sequence]
      | map =>
          dsimp only
          by_cases strays : sequence.length > 0 ∨ others = true
          · rw [if_pos strays, if_pos strays]
            rfl
          · rw [if_neg strays, if_neg strays, errorOf_map]
            exact errorOf_writeEntries (lookup_alike (errorOf_encodeFields fields (depth + 1))) _

theorem errorOf_encodeItems (items : List Value) (depth : Nat) :
    errorOf (encodeItems numeral depth items) =
      (obstacleItems depth items).map Obstacle.message := by
  match items with
  | [] => rfl
  | v :: rest =>
      have first := errorOf_encodeValue v depth
      rw [encodeItems, obstacleItems]
      generalize encodeValue numeral depth v = result at first ⊢
      generalize obstacle depth v = seen at first ⊢
      cases seen with
      | none =>
          cases result with
          | error msg => contradiction
          | ok item =>
              dsimp only
              rw [errorOf_map, errorOf_encodeItems rest, Option.none_or]
      | some o =>
          cases result with
          | error msg => exact first
          | ok item => contradiction

theorem errorOf_encodeFields (fields : List (Bytes × Value)) (depth : Nat) :
    (encodeFields numeral depth fields).map (fun entry => (entry.1, errorOf entry.2)) =
      (obstacleFields depth fields).map fun entry => (entry.1, entry.2.map Obstacle.message) := by
  match fields with
  | [] => rfl
  | (key, v) :: rest =>
      rw [encodeFields, obstacleFields, List.map_cons, List.map_cons, errorOf_encodeValue v,
        errorOf_encodeFields rest]

end

theorem message_eq_badSecret {o : Obstacle} : o.message = OnStack.badSecret ↔ o = .secret := by
  cases o <;> decide

end Encode

/-! ## The stack -/

section Keep
variable (put : Nat → Number → Bytes) (numeral : Number → Bytes)

/-- Encoding the value ends and leaves the stack as it was, whatever the allocations do
and whatever the first buffer. -/
def EncodingKeepsStack (v : Value) : Prop :=
  ∀ (alloc : Nat → Bool) (met : Value → Nat) (cap : Nat) (L : Stack) (idx : Int), 0 < cap →
    OnStack.ValueAt L idx v →
      ∃ r, OnStack.Ends put numeral alloc met cap L idx r ∧ r.2 = L

/-- Decoding a document leaves one value or, when it fails, nothing. -/
def DecodingKeepsStack (get : Nat → Bytes → Number) (buf : Bytes) : Prop :=
  ∀ (alloc : Nat → Bool) (L : Stack),
    (∃ slot, Decode.qwe_cbor_to_lua alloc get buf L = some (.ok (), L.push slot)) ∨
    ∃ msg, Decode.qwe_cbor_to_lua alloc get buf L = some (.error msg, L)

open OnStack in
theorem finished_keeps {alloc : Nat → Bool} {v : Value} {L : Stack} {r : Except String Bytes × Stack}
    (fine : obstacle 0 v ≠ some .secret) (finished : Finished put numeral alloc v L r) : r.2 = L := by
  cases finished with
  | starved asked => rfl
  | written expected => rfl
  | failed expected left =>
      rename_i msg L'
      have failed := errorOf_encodeValue numeral v 0
      rw [valueBytes] at expected
      rw [← errorOf_map _ fun item => Tinycbor.tokensBytes put item.tokens, expected] at failed
      cases seen : obstacle 0 v with
      | none =>
          rw [seen] at failed
          contradiction
      | some o =>
          rw [seen] at failed
          have other : msg ≠ badSecret := by
            intro bad
            have same : o = .secret :=
              message_eq_badSecret.mp ((Option.some.inj failed).symm.trans bad)
            exact fine (seen.trans (congrArg some same))
          rw [if_neg other] at left
          exact left

open OnStack in
theorem finished_leaves {v : Value} {L : Stack} {r : Except String Bytes × Stack}
    (bad : obstacle 0 v = some .secret) (finished : Finished put numeral (fun _ => true) v L r) :
    r.2 ≠ L := by
  have failed := errorOf_encodeValue numeral v 0
  rw [bad, ← errorOf_map _ fun item => Tinycbor.tokensBytes put item.tokens, ← valueBytes] at failed
  cases finished with
  | starved asked =>
      obtain ⟨k, refused⟩ := asked
      contradiction
  | written expected =>
      rw [expected] at failed
      contradiction
  | failed expected left =>
      rw [expected] at failed
      rw [show _ = badSecret from Option.some.inj failed, if_pos rfl] at left
      obtain ⟨slot, pushed⟩ := left
      intro same
      exact Stack.push_ne (pushed.symm.trans same)

open OnStack in
theorem encodingKeepsStack_iff (v : Value) :
    EncodingKeepsStack put numeral v ↔ obstacle 0 v ≠ some .secret := by
  constructor
  · intro keeps bad
    have at_ : ValueAt [.value v] 1 v := ⟨Nat.zero_lt_one, rfl⟩
    obtain ⟨r, ends, same⟩ := keeps (fun _ => true) (fun _ => 0) firstCap _ _ (by decide) at_
    obtain ⟨r', ends', finished⟩ := qwe_lua_to_cbor_ends put numeral (fun _ => true) (fun _ => 0) at_
      (show 0 < firstCap by decide)
    obtain rfl := ends.unique ends'
    exact finished_leaves put numeral bad finished same
  · intro fine alloc met cap L idx some_ at_
    obtain ⟨r, ends, finished⟩ := qwe_lua_to_cbor_ends put numeral alloc met at_ some_
    exact ⟨r, ends, finished_keeps put numeral fine finished⟩

/-- Decoding keeps the stack for every document; encoding keeps it for a value if and only
if the first obstacle in the value is not a secret without a text. -/
theorem conversions_keep_stack_iff (get : Nat → Bytes → Number) :
    (∀ buf, DecodingKeepsStack get buf) ∧
      ∀ v, EncodingKeepsStack put numeral v ↔ obstacle 0 v ≠ some .secret :=
  ⟨fun buf alloc L => Decode.qwe_cbor_to_lua_leaves alloc get buf L,
    encodingKeepsStack_iff put numeral⟩

end Keep

/-- An empty table with the metatable of secrets: the nil that was found stays. -/
theorem empty_secret_stays : ¬ ((∀ buf, DecodingKeepsStack (fun _ _ => .nan) buf) ∧
    ∀ v, EncodingKeepsStack (fun _ _ => []) (fun _ => []) v) := by
  intro claim
  have fine := (encodingKeepsStack_iff (fun _ _ => []) (fun _ => []) (.table .secret [] [] false)).mp
    (claim.2 _)
  exact fine rfl

end Qwe.Lua
