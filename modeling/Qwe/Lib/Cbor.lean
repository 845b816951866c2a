import Mathlib.Algebra.Ring.Nat
import Mathlib.Tactic.Common

/-!
# CBOR documents

A document is the sequence of heads an encoder writes.  `Item` is the tree that a
decoder's iterators walk, `Item.tokens` the heads of a tree, and `read` the tree
of the first item of a sequence: a shift-reduce reader with the open containers
on a stack.
-/

set_option autoImplicit false

namespace Qwe.Cbor

universe u

/-- A head.  The number types of the floats are left open. -/
inductive Token (ν : Type u) where
  | int (v : Int)
  | bytes (s : List UInt8)
  | text (s : List UInt8)
  /-- a definite count, or none: the items go on to a `stop` -/
  | array (count : Option Nat)
  | map (count : Option Nat)
  | tag (t : Nat)
  | bool (b : Bool)
  | null
  | undefined
  | simple (n : Nat)
  | float (d : ν)
  | double (d : ν)
  | stop
deriving DecidableEq, Repr

inductive Item (ν : Type u) where
  | int (v : Int)
  | bytes (s : List UInt8)
  | text (s : List UInt8)
  | array (definite : Bool) (items : List (Item ν))
  | map (definite : Bool) (entries : List (Item ν × Item ν))
  | tag (t : Nat) (item : Item ν)
  | bool (b : Bool)
  | null
  | undefined
  | simple (n : Nat)
  | float (d : ν)
  | double (d : ν)
deriving Repr

variable {ν : Type u}

/-- The item behind all its tags. -/
def Item.untagged : Item ν → Item ν
  | .tag _ item => item.untagged
  | item => item

/-- The head of a container, and what ends it. -/
def openCount (definite : Bool) (n : Nat) : Option Nat := if definite then some n else none

def closing (definite : Bool) : List (Token ν) := if definite then [] else [.stop]

mutual

def Item.tokens : Item ν → List (Token ν)
  | .int v => [.int v]
  | .bytes s => [.bytes s]
  | .text s => [.text s]
  | .array definite items =>
      .array (openCount definite items.length) :: (itemsTokens items ++ closing definite)
  | .map definite entries =>
      .map (openCount definite entries.length) :: (entriesTokens entries ++ closing definite)
  | .tag t item => .tag t :: item.tokens
  | .bool b => [.bool b]
  | .null => [.null]
  | .undefined => [.undefined]
  | .simple n => [.simple n]
  | .float d => [.float d]
  | .double d => [.double d]

def itemsTokens : List (Item ν) → List (Token ν)
  | [] => []
  | item :: rest => item.tokens ++ itemsTokens rest

def entriesTokens : List (Item ν × Item ν) → List (Token ν)
  | [] => []
  | (key, value) :: rest => key.tokens ++ value.tokens ++ entriesTokens rest

end

/-! ## Reading -/

/-- An open container, with what it holds so far, newest first, and how many items
it still takes. -/
inductive Frame (ν : Type u) where
  | array (left : Option Nat) (done : List (Item ν))
  | map (left : Option Nat) (done : List (Item ν × Item ν))
  /-- a map entry whose key was read -/
  | value (left : Option Nat) (done : List (Item ν × Item ν)) (key : Item ν)
  | tag (t : Nat)

/-- A finished item goes into the innermost container, which it may finish. -/
def place (item : Item ν) : List (Frame ν) → Item ν ⊕ List (Frame ν)
  | [] => .inl item
  | .tag t :: rest => place (.tag t item) rest
  | .array none done :: rest => .inr (.array none (item :: done) :: rest)
  | .array (some n) done :: rest =>
      if n ≤ 1 then place (.array true (item :: done).reverse) rest
      else .inr (.array (some (n - 1)) (item :: done) :: rest)
  | .map left done :: rest => .inr (.value left done item :: rest)
  | .value none done key :: rest => .inr (.map none ((key, item) :: done) :: rest)
  | .value (some n) done key :: rest =>
      if n ≤ 1 then place (.map true ((key, item) :: done).reverse) rest
      else .inr (.map (some (n - 1)) ((key, item) :: done) :: rest)

/-- What one head does to the open containers. -/
def shift (stack : List (Frame ν)) : Token ν → Option (Item ν ⊕ List (Frame ν))
  | .int v => some (place (.int v) stack)
  | .bytes s => some (place (.bytes s) stack)
  | .text s => some (place (.text s) stack)
  | .array (some 0) => some (place (.array true []) stack)
  | .array count => some (.inr (.array count [] :: stack))
  | .map (some 0) => some (place (.map true []) stack)
  | .map count => some (.inr (.map count [] :: stack))
  | .tag t => some (.inr (.tag t :: stack))
  | .bool b => some (place (.bool b) stack)
  | .null => some (place .null stack)
  | .undefined => some (place .undefined stack)
  | .simple n => some (place (.simple n) stack)
  | .float d => some (place (.float d) stack)
  | .double d => some (place (.double d) stack)
  | .stop =>
      match stack with
      | .array none done :: rest => some (place (.array false done.reverse) rest)
      | .map none done :: rest => some (place (.map false done.reverse) rest)
      | _ => none

/-- Reading on, from the open containers or with the item already found: what
follows it is not looked at. -/
def readFrom : Item ν ⊕ List (Frame ν) → List (Token ν) → Option (Item ν)
  | .inl item, _ => some item
  | .inr _, [] => none
  | .inr stack, token :: rest => (shift stack token).bind fun next => readFrom next rest

/-- The first item of a document. -/
def read (tokens : List (Token ν)) : Option (Item ν) := readFrom (.inr []) tokens

/-! ## Reading back what was written -/

theorem readFrom_cons (stack : List (Frame ν)) (token : Token ν) (rest : List (Token ν)) :
    readFrom (.inr stack) (token :: rest) =
      (shift stack token).bind fun next => readFrom next rest := rfl

mutual

theorem readFrom_tokens (item : Item ν) (stack : List (Frame ν)) (rest : List (Token ν)) :
    readFrom (.inr stack) (item.tokens ++ rest) = readFrom (place item stack) rest := by
  match item with
  | .int v => rfl
  | .bytes s => rfl
  | .text s => rfl
  | .bool b => rfl
  | .null => rfl
  | .undefined => rfl
  | .simple n => rfl
  | .float d => rfl
  | .double d => rfl
  | .tag t item =>
      rw [Item.tokens, List.cons_append, readFrom_cons, shift, Option.bind_some,
        readFrom_tokens item, place]
  | .array true [] => rfl
  | .array true (item :: items) =>
      rw [Item.tokens, List.cons_append, readFrom_cons]
      simpa [openCount, closing, shift] using readFrom_counted (item :: items) (by simp) [] stack rest
  | .array false items =>
      rw [Item.tokens, List.cons_append, readFrom_cons, List.append_assoc]
      simp only [openCount, closing, shift, Option.bind_some, Bool.false_eq_true, if_false]
      rw [readFrom_items items [] stack, List.singleton_append, readFrom_cons]
      simp [shift]
  | .map true [] => rfl
  | .map true (entry :: entries) =>
      rw [Item.tokens, List.cons_append, readFrom_cons]
      simpa [openCount, closing, shift] using
        readFrom_countedEntries (entry :: entries) (by simp) [] stack rest
  | .map false entries =>
      rw [Item.tokens, List.cons_append, readFrom_cons, List.append_assoc]
      simp only [openCount, closing, shift, Option.bind_some, Bool.false_eq_true, if_false]
      rw [readFrom_entries entries [] stack, List.singleton_append, readFrom_cons]
      simp [shift]

/-- The items of a container that has no count. -/
theorem readFrom_items (items done : List (Item ν)) (stack : List (Frame ν))
    (rest : List (Token ν)) :
    readFrom (.inr (.array none done :: stack)) (itemsTokens items ++ rest) =
      readFrom (.inr (.array none (items.reverse ++ done) :: stack)) rest := by
  match items with
  | [] => rfl
  | item :: items =>
      rw [itemsTokens, List.append_assoc, readFrom_tokens item, place,
        readFrom_items items (item :: done) stack rest, List.reverse_cons, List.append_assoc,
        List.singleton_append]

/-- The items of a container with a count. -/
theorem readFrom_counted (items : List (Item ν)) (some_ : items ≠ []) (done : List (Item ν))
    (stack : List (Frame ν)) (rest : List (Token ν)) :
    readFrom (.inr (.array (some items.length) done :: stack)) (itemsTokens items ++ rest) =
      readFrom (place (.array true (done.reverse ++ items)) stack) rest := by
  match items with
  | [item] =>
      rw [itemsTokens, itemsTokens, List.append_nil, readFrom_tokens item, place]
      simp
  | item :: second :: items =>
      rw [itemsTokens, List.append_assoc, readFrom_tokens item, place, if_neg (by simp)]
      have later := readFrom_counted (second :: items) (by simp) (item :: done) stack rest
      simpa using later

theorem readFrom_entries (entries done : List (Item ν × Item ν)) (stack : List (Frame ν))
    (rest : List (Token ν)) :
    readFrom (.inr (.map none done :: stack)) (entriesTokens entries ++ rest) =
      readFrom (.inr (.map none (entries.reverse ++ done) :: stack)) rest := by
  match entries with
  | [] => rfl
  | (key, value) :: entries =>
      rw [entriesTokens, List.append_assoc, List.append_assoc, readFrom_tokens key, place,
        readFrom_tokens value, place, readFrom_entries entries ((key, value) :: done) stack rest,
        List.reverse_cons, List.append_assoc, List.singleton_append]

theorem readFrom_countedEntries (entries : List (Item ν × Item ν)) (some_ : entries ≠ [])
    (done : List (Item ν × Item ν)) (stack : List (Frame ν)) (rest : List (Token ν)) :
    readFrom (.inr (.map (some entries.length) done :: stack)) (entriesTokens entries ++ rest) =
      readFrom (place (.map true (done.reverse ++ entries)) stack) rest := by
  match entries with
  | [(key, value)] =>
      rw [entriesTokens, entriesTokens, List.append_nil, List.append_assoc, readFrom_tokens key,
        place, readFrom_tokens value, place]
      simp
  | (key, value) :: second :: entries =>
      rw [entriesTokens, List.append_assoc, List.append_assoc, readFrom_tokens key, place,
        readFrom_tokens value, place, if_neg (by simp)]
      have later := readFrom_countedEntries (second :: entries) (by simp) ((key, value) :: done)
        stack rest
      simpa using later

end

/-- A decoder sees the item that was encoded, whatever follows it. -/
theorem read_tokens (item : Item ν) (rest : List (Token ν)) :
    read (item.tokens ++ rest) = some item := by
  rw [read, readFrom_tokens, place, readFrom]

/-! ## An item is read from as many heads as it has -/

/-- The heads read so far for an open container. -/
def Frame.heads : Frame ν → Nat
  | .array _ done => 1 + (itemsTokens done).length
  | .map _ done => 1 + (entriesTokens done).length
  | .value _ done key => 1 + (entriesTokens done).length + key.tokens.length
  | .tag _ => 1

def headsOf : Item ν ⊕ List (Frame ν) → Nat
  | .inl item => item.tokens.length
  | .inr stack => (stack.map Frame.heads).sum

theorem length_itemsTokens (items : List (Item ν)) :
    (itemsTokens items).length = (items.map fun item => item.tokens.length).sum := by
  induction items with
  | nil => rfl
  | cons item items inductionHypothesis =>
      rw [itemsTokens, List.length_append, inductionHypothesis, List.map_cons, List.sum_cons]

theorem length_entriesTokens (entries : List (Item ν × Item ν)) :
    (entriesTokens entries).length
      = (entries.map fun entry => entry.1.tokens.length + entry.2.tokens.length).sum := by
  induction entries with
  | nil => rfl
  | cons entry entries inductionHypothesis =>
      rw [entriesTokens, List.length_append, List.length_append, inductionHypothesis, List.map_cons,
        List.sum_cons]

theorem length_closing (definite : Bool) :
    (closing definite : List (Token ν)).length = if definite then 0 else 1 := by
  cases definite <;> rfl

theorem length_array (definite : Bool) (items : List (Item ν)) :
    (Item.array definite items.reverse).tokens.length
      = 1 + (itemsTokens items).length + if definite then 0 else 1 := by
  rw [Item.tokens, List.length_cons, List.length_append, length_itemsTokens, length_itemsTokens,
    List.map_reverse, List.sum_reverse, length_closing]
  omega

theorem length_map (definite : Bool) (entries : List (Item ν × Item ν)) :
    (Item.map definite entries.reverse).tokens.length
      = 1 + (entriesTokens entries).length + if definite then 0 else 1 := by
  rw [Item.tokens, List.length_cons, List.length_append, length_entriesTokens, length_entriesTokens,
    List.map_reverse, List.sum_reverse, length_closing]
  omega

theorem headsOf_place (item : Item ν) (stack : List (Frame ν)) :
    headsOf (place item stack) = item.tokens.length + (stack.map Frame.heads).sum := by
  induction stack generalizing item with
  | nil => rfl
  | cons frame rest inductionHypothesis =>
      rw [List.map_cons, List.sum_cons]
      match frame with
      | .tag t =>
          rw [place, inductionHypothesis, Item.tokens, List.length_cons, Frame.heads]
          omega
      | .array none done =>
          rw [place, headsOf, List.map_cons, List.sum_cons, Frame.heads, Frame.heads, itemsTokens,
            List.length_append]
          omega
      | .array (some n) done =>
          rw [place]
          split_ifs
          · rw [inductionHypothesis, length_array, itemsTokens, List.length_append, Frame.heads,
              if_pos rfl]
            omega
          · rw [headsOf, List.map_cons, List.sum_cons, Frame.heads, Frame.heads, itemsTokens,
              List.length_append]
            omega
      | .map left done =>
          rw [place, headsOf, List.map_cons, List.sum_cons, Frame.heads, Frame.heads]
          omega
      | .value none done key =>
          rw [place, headsOf, List.map_cons, List.sum_cons, Frame.heads, Frame.heads, entriesTokens,
            List.length_append, List.length_append]
          omega
      | .value (some n) done key =>
          rw [place]
          split_ifs
          · rw [inductionHypothesis, length_map, entriesTokens, List.length_append,
              List.length_append, Frame.heads, if_pos rfl]
            omega
          · rw [headsOf, List.map_cons, List.sum_cons, Frame.heads, Frame.heads, entriesTokens,
              List.length_append, List.length_append]
            omega

theorem headsOf_shift {stack : List (Frame ν)} {token : Token ν} {next : Item ν ⊕ List (Frame ν)}
    (shifted : shift stack token = some next) :
    headsOf next = (stack.map Frame.heads).sum + 1 := by
  have leaf (item : Item ν) (single : item.tokens.length = 1)
      (placed : some (place item stack) = some next) :
      headsOf next = (stack.map Frame.heads).sum + 1 := by
    rw [← Option.some.inj placed, headsOf_place, single, Nat.add_comm]
  have opened (frame : Frame ν) (single : frame.heads = 1)
      (pushed : some (.inr (frame :: stack)) = some next) :
      headsOf next = (stack.map Frame.heads).sum + 1 := by
    rw [← Option.some.inj pushed, headsOf, List.map_cons, List.sum_cons, single, Nat.add_comm]
  match token with
  | .int v => exact leaf _ rfl shifted
  | .bytes s => exact leaf _ rfl shifted
  | .text s => exact leaf _ rfl shifted
  | .bool b => exact leaf _ rfl shifted
  | .null => exact leaf _ rfl shifted
  | .undefined => exact leaf _ rfl shifted
  | .simple n => exact leaf _ rfl shifted
  | .float d => exact leaf _ rfl shifted
  | .double d => exact leaf _ rfl shifted
  | .array (some 0) => exact leaf _ rfl shifted
  | .array (some (n + 1)) => exact opened _ rfl shifted
  | .array none => exact opened _ rfl shifted
  | .map (some 0) => exact leaf _ rfl shifted
  | .map (some (n + 1)) => exact opened _ rfl shifted
  | .map none => exact opened _ rfl shifted
  | .tag t => exact opened _ rfl shifted
  | .stop =>
      match stack with
      | .array none done :: rest =>
          rw [← Option.some.inj shifted, headsOf_place, length_array, List.map_cons, List.sum_cons,
            Frame.heads, if_neg Bool.false_ne_true]
          omega
      | .map none done :: rest =>
          rw [← Option.some.inj shifted, headsOf_place, length_map, List.map_cons, List.sum_cons,
            Frame.heads, if_neg Bool.false_ne_true]
          omega

theorem readFrom_length {state : Item ν ⊕ List (Frame ν)} {tokens : List (Token ν)} {item : Item ν}
    (found : readFrom state tokens = some item) :
    item.tokens.length ≤ headsOf state + tokens.length := by
  induction tokens generalizing state with
  | nil =>
      match state with
      | .inl own =>
          rw [readFrom, Option.some.injEq] at found
          rw [← found, headsOf]
          exact Nat.le_add_right _ _
  | cons token tokens inductionHypothesis =>
      match state with
      | .inl own =>
          rw [readFrom, Option.some.injEq] at found
          rw [← found, headsOf]
          exact Nat.le_add_right _ _
      | .inr stack =>
          rw [readFrom_cons, Option.bind_eq_some_iff] at found
          obtain ⟨next, shifted, further⟩ := found
          have rest := inductionHypothesis further
          rw [headsOf_shift shifted] at rest
          rw [headsOf, List.length_cons]
          omega

/-- An item has no more heads than the document it is read from. -/
theorem read_length {tokens : List (Token ν)} {item : Item ν} (found : read tokens = some item) :
    item.tokens.length ≤ tokens.length := by
  have bound := readFrom_length found
  rwa [headsOf, List.map_nil, List.sum_nil, Nat.zero_add] at bound

end Qwe.Cbor
