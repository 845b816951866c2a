import Qwe.Lib.Numerals
import Qwe.Lib.Separators
import Qwe.Lua.Paths
import Qwe.Schema.Raises

/-!
# JSON Pointers

Every piece of code that writes or reads a JSON Pointer: `path_push_key` and
`path_push_index` of `src/edge/yaml/transcode.c`, `escape_token` and `last_token`
of `src/kernel/validate.c`, and `esc`, `unesc`, `last_token` and `resolve` of
`src/kernel/lua/validate.lua`.
-/

set_option autoImplicit false

namespace Qwe.Pointer

open Qwe.Redact (Bytes)
open Qwe.Template (bytes decimalNat isDigit)
open Qwe.Lua (Value fieldAt cString)
open Qwe.Yaml (Ref pathPushKey pathPushIndex escapeKey pointerOf)
open Qwe.Patterns (gsub match_ gmatch replacePair lastPiece pieceBehind)

/-! ## Written in C -/

/-- A path pushed token by token. -/
def pushed (refs : List Ref) : Bytes :=
  refs.foldl (fun path ref =>
    match ref with
    | .key key => pathPushKey path key
    | .index i => pathPushIndex path i) []

namespace C

/-- `escape_token`, up to the NUL -/
def escape_token : Bytes → Bytes
  | [] => []
  | b :: s =>
      if b = 0 then []
      else if b = 126 then 126 :: 48 :: escape_token s
      else if b = 47 then 126 :: 49 :: escape_token s
      else b :: escape_token s

/-- The loop of `last_token`. -/
def unescape : Bytes → Bytes
  | 126 :: 49 :: s => 47 :: unescape s
  | 126 :: 48 :: s => 126 :: unescape s
  | b :: s => b :: unescape s
  | [] => []

/-- `last_token`: behind the slash that `strrchr` finds, if any. -/
def last_token (pointer : Bytes) : Bytes := unescape ((cString pointer).rtakeWhile (· != 47))

/-- `"/%s"` of each escaped key, and `"/%lu"` of each index -/
def printed (refs : List Ref) : Bytes :=
  refs.flatMap fun ref => 47 ::
    match ref with
    | .key key => escape_token key
    | .index i => decimalNat i

end C

/-! ## Written in Lua -/

/-- `%.14g` of a natural number: above 14 digits with an exponent, rounded half to even. -/
def general (n : Nat) : Bytes :=
  if n < 10 ^ 14 then decimalNat n
  else
    let unit := 10 ^ (Nat.log 10 n - 13)
    let up := unit < 2 * (n % unit) ∨ 2 * (n % unit) = unit ∧ n / unit % 2 = 1
    let mantissa := if up then n / unit + 1 else n / unit
    let exponent := if mantissa = 10 ^ 14 then Nat.log 10 n + 1 else Nat.log 10 n
    let digits := (decimalNat mantissa).rdropWhile (· == 48)
    digits.take 1 ++ (if 1 < digits.length then bytes "." ++ digits.drop 1 else []) ++
      bytes "e+" ++ decimalNat exponent

/-- `tostring` of a key or an index -/
def tostring : Ref → Bytes
  | .key key => key
  | .index i => general i

def esc (token : Ref) : Bytes :=
  gsub ⟨false, [.one (.byte 47)]⟩ (fun _ => bytes "~1")
    (gsub ⟨false, [.one (.byte 126)]⟩ (fun _ => bytes "~0") (tostring token))

def unesc (token : Bytes) : Bytes :=
  gsub ⟨false, [.one (.byte 126), .one (.byte 48)]⟩ (fun _ => bytes "~")
    (gsub ⟨false, [.one (.byte 126), .one (.byte 49)]⟩ (fun _ => bytes "/") token)

/-- `last_token`, on `([^/]*)$` -/
def last_token (pointer : Bytes) : Option Bytes :=
  (match_ ⟨false, lastPiece 47⟩ pointer).map fun found => unesc (found.text 0)

/-- `pointer .. "/" .. esc(token)` for each token -/
def scripted (refs : List Ref) : Bytes :=
  refs.foldl (fun pointer ref => pointer ++ bytes "/" ++ esc ref) []

/-- `tonumber(token) or -1`, as an index from 0.  What comes of a text that is not made of
digits is left open. -/
def arrayIndex (other : Bytes → Option Nat) (token : Bytes) : Option Nat :=
  if token ≠ [] ∧ token.all isDigit = true ∧ Numerals.value 10 token < 2 ^ 53 then
    some (Numerals.value 10 token)
  else other token

/-- One turn of the loop of `resolve`. -/
def resolveToken (other : Bytes → Option Nat) (cur : Value) (token : Bytes) : Value :=
  match cur with
  | .table mt sequence fields _ =>
      if mt = .array then ((arrayIndex other (unesc token)).bind (sequence[·]?)).getD .nil
      else fieldAt fields (unesc token)
  | _ => .nil

/-- `resolve`, on the tokens `/([^/]*)` -/
def resolve (other : Bytes → Option Nat) (doc : Value) (pointer : Bytes) : Value :=
  ((gmatch (pieceBehind 47) pointer).map (·.text 0)).foldl (resolveToken other) doc

/-! ## Indices -/

section Indices
variable {i j : Nat} {s : Bytes} {refs others : List Ref} {ref : Ref}

theorem decimalNat_ne_nil (i : Nat) : decimalNat i ≠ [] := by
  change Numerals.numeral 10 i ≠ []
  rw [Numerals.numeral_eq_if (by decide)]
  split_ifs
  · exact List.cons_ne_nil _ _
  · exact List.append_ne_nil_of_right_ne_nil _ (List.cons_ne_nil _ _)

/-- Digits are not escaped. -/
theorem not_mem_decimalNat {b : UInt8} (other : b.toNat < 48) : b ∉ decimalNat i := by
  intro inside
  have digit := Template.digit_of_mem_decimalNat inside
  omega

theorem tilde_not_mem_decimalNat : 126 ∉ decimalNat i := by
  intro inside
  have digit := Template.digit_of_mem_decimalNat inside
  simp only [UInt8.reduceToNat] at digit
  omega

theorem arrayIndex_decimalNat (other : Bytes → Option Nat) (below : i < 2 ^ 53) :
    arrayIndex other (decimalNat i) = some i := by
  have value : Numerals.value 10 (decimalNat i) = i :=
    Numerals.value_numeral (by decide) (by decide) i
  have digits : (decimalNat i).all isDigit = true :=
    List.all_eq_true.mpr fun b inside => Template.isDigit_of_mem_decimalNat inside
  rw [arrayIndex, if_pos ⟨decimalNat_ne_nil i, digits, by rw [value]; exact below⟩, value]

end Indices

/-! ## One token -/

section Tokens
variable {b : UInt8} {key s : Bytes} {ref : Ref} {i : Nat}

/-- What a token stands for. -/
def plain : Ref → Bytes
  | .key key => key
  | .index i => decimalNat i

theorem escapeKey_cons (b : UInt8) (key : Bytes) : escapeKey (b :: key)
    = (if b = 126 then [126, 48] else if b = 47 then [126, 49] else [b]) ++ escapeKey key := by
  have tilde : bytes "~0" = [126, 48] := rfl
  have slash : bytes "~1" = [126, 49] := rfl
  simp only [escapeKey, List.flatMap_cons, beq_iff_eq, tilde, slash]

theorem escapeKey_of_unmarked (tildes : 126 ∉ s) (slashes : 47 ∉ s) : escapeKey s = s := by
  induction s with
  | nil => rfl
  | cons b s inductionHypothesis =>
      rw [List.mem_cons, not_or] at tildes slashes
      rw [escapeKey_cons, if_neg (Ne.symm tildes.1), if_neg (Ne.symm slashes.1),
        inductionHypothesis tildes.2 slashes.2]
      rfl

theorem text_eq (ref : Ref) : ref.text = escapeKey (plain ref) := by
  cases ref with
  | key key => rfl
  | index i =>
      rw [Ref.text, plain, Template.bytes_toString,
        escapeKey_of_unmarked tilde_not_mem_decimalNat (not_mem_decimalNat (by decide))]

theorem escape_token_eq (clean : 0 ∉ key) : C.escape_token key = escapeKey key := by
  induction key with
  | nil => rfl
  | cons b key inductionHypothesis =>
      rw [List.mem_cons, not_or] at clean
      rw [C.escape_token, if_neg (Ne.symm clean.1), escapeKey_cons, inductionHypothesis clean.2]
      split_ifs <;> rfl

/-- The order of the two substitutions: the tilde of a `~1` is not escaped again. -/
theorem esc_eq (ref : Ref) : esc ref = escapeKey (tostring ref) := by
  have tilde : bytes "~0" = [126, 48] := rfl
  have slash : bytes "~1" = [126, 49] := rfl
  rw [esc, Patterns.gsub_byte, Patterns.gsub_byte, tilde, slash]
  generalize tostring ref = s
  induction s with
  | nil => rfl
  | cons b s inductionHypothesis =>
      rw [List.flatMap_cons, List.flatMap_append, inductionHypothesis, escapeKey_cons]
      congr 1
      split_ifs with isTilde isSlash
      · rfl
      · rw [List.flatMap_singleton, if_pos isSlash]
      · rw [List.flatMap_singleton, if_neg isSlash]

theorem tostring_eq (below : ∀ i, ref = .index i → i < 10 ^ 14) : tostring ref = plain ref := by
  cases ref with
  | key key => rfl
  | index i => exact if_pos (below i rfl)

/-- Going back the slashes come first, so that the `1` of a key `~1` is not taken for one. -/
theorem unesc_escapeKey (key : Bytes) : unesc (escapeKey key) = key := by
  have slashes : replacePair 126 49 [47] (escapeKey key)
      = key.flatMap fun b => if b = 126 then [126, 48] else [b] := by
    induction key with
    | nil => rfl
    | cons b key inductionHypothesis =>
        rw [escapeKey_cons, List.flatMap_cons, ← inductionHypothesis]
        split_ifs with isTilde isSlash
        · rw [List.cons_append, List.cons_append, List.nil_append,
            Patterns.replacePair_of_second (by rintro d ⟨⟩; decide),
            Patterns.replacePair_of_first (by decide)]
          rfl
        · rw [isSlash]
          exact Patterns.replacePair_pair _
        · exact Patterns.replacePair_of_first isTilde
  have tildes : replacePair 126 48 [126]
      (key.flatMap fun b => if b = 126 then [126, 48] else [b]) = key := by
    clear slashes
    induction key with
    | nil => rfl
    | cons b key inductionHypothesis =>
        rw [List.flatMap_cons]
        split_ifs with isTilde
        · rw [isTilde]
          exact (Patterns.replacePair_pair _).trans (congrArg (126 :: ·) inductionHypothesis)
        · exact (Patterns.replacePair_of_first isTilde).trans
            (congrArg (b :: ·) inductionHypothesis)
  rw [unesc, Patterns.gsub_pair, Patterns.gsub_pair]
  exact (congrArg _ slashes).trans tildes

theorem unescape_cons (other : b ≠ 126) : C.unescape (b :: s) = b :: C.unescape s := by
  rw [C.unescape.eq_3]
  · rintro s' rfl
    exact absurd rfl other
  · rintro s' rfl
    exact absurd rfl other

theorem unescape_escapeKey (key : Bytes) : C.unescape (escapeKey key) = key := by
  induction key with
  | nil => rfl
  | cons b key inductionHypothesis =>
      rw [escapeKey_cons]
      split_ifs with isTilde isSlash
      · rw [isTilde]
        exact congrArg (126 :: ·) inductionHypothesis
      · rw [isSlash]
        exact congrArg (47 :: ·) inductionHypothesis
      · exact (unescape_cons isTilde).trans (congrArg (b :: ·) inductionHypothesis)

end Tokens

/-! ## Whole pointers -/

section Pointers
variable {refs others : List Ref} {ref another : Ref} {doc node elsewhere v w x : Value}

theorem pushed_eq (refs : List Ref) : pushed refs = pointerOf refs := by
  induction refs using List.reverseRecOn with
  | nil => rfl
  | append_singleton refs ref inductionHypothesis =>
      rw [pushed, List.foldl_append, ← pushed, inductionHypothesis]
      cases ref with
      | key key => exact Yaml.pathPushKey_pointerOf refs key
      | index i => exact Yaml.pathPushIndex_pointerOf refs i

theorem printed_eq (clean : ∀ key, Ref.key key ∈ refs → 0 ∉ key) :
    C.printed refs = pointerOf refs := by
  apply List.flatMap_congr
  intro ref inside
  congr 1
  cases ref with
  | key key => exact escape_token_eq (clean key inside)
  | index i => exact (Template.bytes_toString i).symm

theorem scripted_eq (below : ∀ i, Ref.index i ∈ refs → i < 10 ^ 14) :
    scripted refs = pointerOf refs := by
  induction refs using List.reverseRecOn with
  | nil => rfl
  | append_singleton refs ref inductionHypothesis =>
      have own : ∀ i, ref = .index i → i < 10 ^ 14 := by
        rintro i rfl
        exact below i (List.mem_append_right _ (List.mem_singleton_self _))
      rw [scripted, List.foldl_append, ← scripted,
        inductionHypothesis fun i inside => below i (List.mem_append_left _ inside),
        List.foldl_cons, List.foldl_nil, esc_eq, tostring_eq own, ← text_eq, Yaml.pointerOf_concat,
        List.append_assoc]
      rfl

/-- The tokens come back apart. -/
theorem tokens_pointerOf (refs : List Ref) :
    (gmatch (pieceBehind 47) (pointerOf refs)).map (·.text 0) = refs.map Ref.text := by
  have pieces : pointerOf refs = (refs.map Ref.text).flatMap (47 :: ·) := by
    rw [pointerOf, List.flatMap_map]
  rw [pieces]
  apply Patterns.gmatch_pieceBehind
  intro token inside
  obtain ⟨ref, -, rfl⟩ := List.mem_map.mp inside
  exact Yaml.slash_notMem_text ref

/-- A text that is both a key and an index is one of them at a given node. -/
theorem ref_unique (same : ref.text = another.text) (child : v.child ref = some w)
    (other : v.child another = some x) : ref = another := by
  rcases Lua.child_table child with ⟨_, _, _, i, rfl, rfl, -⟩ | ⟨_, _, _, key, rfl, rfl, -⟩ <;>
  rcases Lua.child_table other with ⟨_, _, _, j, table, rfl, -⟩ | ⟨_, _, _, key', table, rfl, -⟩
  · rw [Yaml.index_injective same]
  · cases table
  · cases table
  · rw [Yaml.escapeKey_injective same]

theorem path_unique (same : refs.map Ref.text = others.map Ref.text)
    (leads : doc.nodeAt refs = some node) (other : doc.nodeAt others = some elsewhere) :
    refs = others := by
  induction refs generalizing doc others with
  | nil =>
      rw [List.map_nil, eq_comm, List.map_eq_nil_iff] at same
      exact same.symm
  | cons ref refs inductionHypothesis =>
      cases others with
      | nil => cases same
      | cons another others =>
          rw [List.map_cons, List.map_cons, List.cons_eq_cons] at same
          rw [Lua.nodeAt_cons, Option.bind_eq_some_iff] at leads other
          obtain ⟨w, child, leads⟩ := leads
          obtain ⟨x, child', other⟩ := other
          obtain rfl := ref_unique same.1 child child'
          rw [child, Option.some.injEq] at child'
          rw [inductionHypothesis same.2 leads (child' ▸ other)]

theorem resolveToken_text (other : Bytes → Option Nat) (below : ∀ i, ref = .index i → i < 2 ^ 53)
    (child : v.child ref = some w) : resolveToken other v ref.text = w := by
  rw [text_eq]
  rcases Lua.child_table child with
    ⟨_, _, _, i, rfl, rfl, found⟩ | ⟨_, _, _, key, rfl, rfl, found⟩
  · rw [resolveToken, if_pos rfl, unesc_escapeKey, plain, arrayIndex_decimalNat other (below i rfl),
      Option.bind_some, found, Option.getD_some]
  · rw [resolveToken, if_neg (by decide), unesc_escapeKey, plain, fieldAt, found, Option.getD_some]

theorem resolve_pointerOf (other : Bytes → Option Nat)
    (below : ∀ i, Ref.index i ∈ refs → i < 2 ^ 53) (leads : doc.nodeAt refs = some node) :
    resolve other doc (pointerOf refs) = node := by
  rw [resolve, tokens_pointerOf]
  induction refs generalizing doc with
  | nil =>
      injection leads
  | cons ref refs inductionHypothesis =>
      rw [Lua.nodeAt_cons, Option.bind_eq_some_iff] at leads
      obtain ⟨w, child, leads⟩ := leads
      rw [List.map_cons, List.foldl_cons, resolveToken_text other _ child]
      · exact inductionHypothesis (fun i inside => below i (List.mem_cons_of_mem _ inside)) leads
      · rintro i rfl
        exact below i List.mem_cons_self

/-- What the last token of a path stands for. -/
def lastKey (refs : List Ref) : Bytes := (refs.getLast?.map plain).getD []

theorem rtakeWhile_pointerOf (refs : List Ref) :
    (pointerOf refs).rtakeWhile (· != 47) = escapeKey (lastKey refs) := by
  induction refs using List.reverseRecOn with
  | nil => rfl
  | append_singleton refs ref inductionHypothesis =>
      rw [Yaml.pointerOf_concat, Patterns.rtakeWhile_behind (Yaml.slash_notMem_text ref), lastKey,
        List.getLast?_concat, text_eq]
      rfl

theorem cString_pointerOf (clean : ∀ key, Ref.key key ∈ refs → 0 ∉ key) :
    cString (pointerOf refs) = pointerOf refs := by
  apply Lua.cString_eq_self
  intro member
  obtain ⟨ref, inside, member⟩ := List.mem_flatMap.mp member
  rcases List.mem_cons.mp member with slash | member
  · cases slash
  · refine Yaml.nul_notMem_text ?_ member
    rintro key rfl
    exact clean key inside

theorem last_token_eq (pointer : Bytes) :
    last_token pointer = some (unesc (pointer.rtakeWhile (· != 47))) := by
  rw [last_token, ← Option.map_some, ← Patterns.match_lastPiece, Option.map_map]
  rfl

/-- All code has one pointer for a path, no other path of the document has it, and it leads
back to the node and to the last key. -/
theorem pointers_agree {buf : List (Cbor.Token Lua.Number)} (decoded : Lua.cborToLua buf = .ok doc)
    (small : buf.length ≤ Lua.cborMaxSize) (leads : doc.nodeAt refs = some node)
    (clean : ∀ key, Ref.key key ∈ refs → 0 ∉ key) (other : Bytes → Option Nat) :
    C.printed refs = pushed refs ∧ scripted refs = pushed refs ∧
    (∀ others elsewhere, doc.nodeAt others = some elsewhere → others ≠ refs →
      pushed others ≠ pushed refs) ∧
    resolve other doc (pushed refs) = node ∧
    C.last_token (pushed refs) = lastKey refs ∧ last_token (pushed refs) = some (lastKey refs) := by
  have below : ∀ i, Ref.index i ∈ refs → i < 1024 * 1024 * 64 := fun i inside =>
    Nat.lt_of_lt_of_le (Lua.index_lt_of_decoded decoded leads inside) small
  rw [pushed_eq]
  refine ⟨printed_eq clean, scripted_eq fun i inside => (below i inside).trans (by decide),
    fun others elsewhere leads' differ same => differ ?_,
    resolve_pointerOf other (fun i inside => (below i inside).trans (by decide)) leads, ?_, ?_⟩
  · rw [pushed_eq] at same
    refine path_unique ?_ leads' leads
    rw [← tokens_pointerOf, same, tokens_pointerOf]
  · rw [C.last_token, cString_pointerOf clean, rtakeWhile_pointerOf, unescape_escapeKey]
  · rw [last_token_eq, rtakeWhile_pointerOf, unesc_escapeKey]

theorem pointers_agree_list :
    let buf : List (Cbor.Token Lua.Number) :=
      [.map (some 1), .text (bytes "a/~1"), .array (some 2), .text (bytes "x"), .bool true]
    let doc := Value.map [(bytes "a/~1", Value.array [.string (bytes "x"), .boolean true])]
    let refs := [Ref.key (bytes "a/~1"), .index 1]
    Lua.cborToLua buf = .ok doc ∧ doc.nodeAt refs = some (.boolean true) ∧
    pushed refs = bytes "/a~1~01/1" ∧ scripted refs = bytes "/a~1~01/1" ∧
    resolve (fun _ => none) doc (bytes "/a~1~01/1") = .boolean true := by
  intro buf doc refs
  have clean : ∀ key, Ref.key key ∈ refs → 0 ∉ key := by
    intro key inside
    rcases List.mem_cons.mp inside with same | inside
    · injection same with same
      rw [same]
      decide
    · cases List.mem_singleton.mp inside
  have text : pushed refs = bytes "/a~1~01/1" := by decide
  have decoded : Lua.cborToLua buf = .ok doc := rfl
  have leads : doc.nodeAt refs = some (.boolean true) := rfl
  have agree := pointers_agree decoded (by decide) leads clean fun _ => none
  rw [← text]
  exact ⟨decoded, leads, rfl, agree.2.1, agree.2.2.2.1⟩

/-! ## The functions of single checks -/

/-- `esc` of a key, as the checks of documents have it. -/
theorem esc_key (key : Bytes) : esc (.key key) = Template.esc key :=
  (esc_eq (.key key)).trans (Schema.esc_eq_escapeKey key).symm

theorem replaceTilde_eq (second by_ : UInt8) (s : Bytes) :
    Schema.replaceTilde second by_ s = replacePair 126 second [by_] s := by
  fun_induction Schema.replaceTilde second by_ s with
  | case1 => rfl
  | case2 b => rfl
  | case3 b c rest pair inductionHypothesis =>
      rw [replacePair, if_pos pair, inductionHypothesis]
      rfl
  | case4 b c rest other inductionHypothesis =>
      rw [replacePair, if_neg other, inductionHypothesis]

theorem last_token_eq_lastToken (pointer : Bytes) :
    last_token pointer = some (Schema.lastToken pointer) := by
  rw [last_token_eq, Schema.lastToken, Schema.unesc, replaceTilde_eq, replaceTilde_eq, unesc,
    Patterns.gsub_pair, Patterns.gsub_pair]
  rfl

end Pointers

end Qwe.Pointer
