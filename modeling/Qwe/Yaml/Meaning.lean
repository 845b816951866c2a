import Qwe.Yaml.Transcode

/-!
# What a YAML document means

A node tree, the events that deliver it, the CBOR item they are encoded to and the
Lua value it stands for.  The event handler's decisions rest on the kinds of the
open containers and the turn of key and value in each: `Ctx.shape`.
-/

set_option autoImplicit false

namespace Qwe.Yaml

open Qwe.Cbor Qwe.Lua
open Qwe.Redact (Bytes)
open Qwe.Template (bytes isDigit)

/-! ## Node trees -/

structure Key where
  mark : Mark
  value : Bytes
  plain : Bool
deriving DecidableEq, Repr

inductive Node where
  | scalar (mark : Mark) (value : Bytes) (plain encrypted : Bool)
  | sequence (mark close : Mark) (items : List Node)
  | mapping (mark close : Mark) (entries : List (Key × Node))

def tagOf (encrypted : Bool) : Option Bytes := if encrypted then some encryptedTag else none

mutual

def Node.events : Node → List Event
  | .scalar mark value plain encrypted => [⟨.scalar ⟨value, plain, tagOf encrypted, false⟩, mark⟩]
  | .sequence mark close items =>
      ⟨.start false none false, mark⟩ :: (itemsEvents items ++ [⟨.finish false, close⟩])
  | .mapping mark close entries =>
      ⟨.start true none false, mark⟩ :: (entriesEvents entries ++ [⟨.finish true, close⟩])

def itemsEvents : List Node → List Event
  | [] => []
  | node :: rest => node.events ++ itemsEvents rest

def entriesEvents : List (Key × Node) → List Event
  | [] => []
  | (key, node) :: rest =>
      ⟨.scalar ⟨key.value, key.plain, none, false⟩, key.mark⟩ :: (node.events ++ entriesEvents rest)

end

/-- The events of a stream with one document, up to its end. -/
def Node.document (node : Node) (stream opens closes : Mark) : List Event :=
  [⟨.streamStart, stream⟩, ⟨.documentStart, opens⟩] ++ node.events ++ [⟨.documentEnd, closes⟩]

/-- A plain `<<`, which stands for a merge. -/
def Key.isMerge (key : Key) : Bool := key.plain && key.value == bytes "<<"

mutual

/-- No key twice in a mapping, and no merge keys. -/
def Node.regular : Node → Bool
  | .scalar .. => true
  | .sequence _ _ items => itemsRegular items
  | .mapping _ _ entries => decide (entries.map (·.1.value)).Nodup && entriesRegular entries

def itemsRegular : List Node → Bool
  | [] => true
  | node :: rest => node.regular && itemsRegular rest

def entriesRegular : List (Key × Node) → Bool
  | [] => true
  | (key, node) :: rest => !key.isMerge && node.regular && entriesRegular rest

end

mutual

/-- How many containers are nested. -/
def Node.depth : Node → Nat
  | .scalar .. => 0
  | .sequence _ _ items => 1 + itemsDepth items
  | .mapping _ _ entries => 1 + entriesDepth entries

def itemsDepth : List Node → Nat
  | [] => 0
  | node :: rest => max node.depth (itemsDepth rest)

def entriesDepth : List (Key × Node) → Nat
  | [] => 0
  | (_, node) :: rest => max node.depth (entriesDepth rest)

end

/-! ## Meaning -/

/-- What a scalar is taken for. -/
inductive Class where
  | secret
  | null
  | boolean (b : Bool)
  | integer
  | float
  | text
deriving DecidableEq, Repr

def classOf (value : Bytes) (plain encrypted : Bool) : Class :=
  if encrypted then .secret
  else if !plain then .text
  else if isNullText value then .null
  else if isTrueText value then .boolean true
  else if isFalseText value then .boolean false
  else if isInt value then .integer
  else if isFloat value then .float
  else .text

theorem sign_dropSign (s : Bytes) : ∃ sign ∈ [[], [45], [43]], s = sign ++ dropSign s := by
  unfold dropSign
  split
  · exact ⟨[45], by simp, rfl⟩
  · exact ⟨[43], by simp, rfl⟩
  · exact ⟨[], by simp, rfl⟩

/-- Integers are a sign, if any, and 1 to 18 digits. -/
theorem isInt_iff (s : Bytes) :
    isInt s = true ↔ ∃ sign ∈ [[], [45], [43]], ∃ digits : Bytes, s = sign ++ digits ∧
      1 ≤ digits.length ∧ digits.length ≤ 18 ∧ digits.all isDigit = true := by
  have unsigned : ∀ digits : Bytes, digits.all isDigit = true → dropSign digits = digits := by
    intro digits all
    unfold dropSign
    split
    · simp [isDigit] at all
    · simp [isDigit] at all
    · rfl
  constructor
  · intro int
    simp only [isInt] at int
    split at int
    · contradiction
    rename_i length
    obtain ⟨sign, among, parts⟩ := sign_dropSign s
    exact ⟨sign, among, dropSign s, parts, by omega, by omega, int⟩
  · rintro ⟨sign, among, digits, rfl, some_, few, all⟩
    have dropped : dropSign (sign ++ digits) = digits := by
      simp only [List.mem_cons, List.not_mem_nil, or_false] at among
      rcases among with rfl | rfl | rfl
      · exact unsigned digits all
      · rfl
      · rfl
    simp only [isInt, dropped]
    rw [if_neg (by omega)]
    exact all

section
variable (strtod : Bytes → Number)

def Class.value (text : Bytes) : Class → Value
  | .secret => .secret text
  | .null => Lua.null
  | .boolean b => .boolean b
  | .integer => .number (.finite (strtoll text))
  | .float => .number (strtod text)
  | .text => .string text

def Class.item (text : Bytes) : Class → Item Number
  | .secret => .tag secretTag (.text text)
  | .null => .null
  | .boolean b => .bool b
  | .integer => .int (strtoll text)
  | .float => .double (strtod text)
  | .text => .text text

mutual

/-- The value a tree stands for. -/
def Node.value : Node → Value
  | .scalar _ text plain encrypted => (classOf text plain encrypted).value strtod text
  | .sequence _ _ items => .array (itemsValues items)
  | .mapping _ _ entries => .map (entriesValues entries)

def itemsValues : List Node → List Value
  | [] => []
  | node :: rest => node.value :: itemsValues rest

def entriesValues : List (Key × Node) → List (Bytes × Value)
  | [] => []
  | (key, node) :: rest => (key.value, node.value) :: entriesValues rest

end

mutual

/-- The item the encoder writes. -/
def Node.item : Node → Item Number
  | .scalar _ text plain encrypted => (classOf text plain encrypted).item strtod text
  | .sequence _ _ items => .array false (itemsItems items)
  | .mapping _ _ entries => .map false (entriesItems entries)

def itemsItems : List Node → List (Item Number)
  | [] => []
  | node :: rest => node.item :: itemsItems rest

def entriesItems : List (Key × Node) → List (Item Number × Item Number)
  | [] => []
  | (key, node) :: rest => (.text key.value, node.item) :: entriesItems rest

end

end

mutual

/-- The integers among the plain scalars. -/
def Node.integers : Node → List Int
  | .scalar _ text plain encrypted =>
      if classOf text plain encrypted = .integer then [strtoll text] else []
  | .sequence _ _ items => itemsIntegers items
  | .mapping _ _ entries => entriesIntegers entries

def itemsIntegers : List Node → List Int
  | [] => []
  | node :: rest => node.integers ++ itemsIntegers rest

def entriesIntegers : List (Key × Node) → List Int
  | [] => []
  | (_, node) :: rest => node.integers ++ entriesIntegers rest

end

/-- Beyond what a Lua number holds exactly. -/
def Beyond (n : Int) : Prop := n > maxExact ∨ n < -maxExact

instance (n : Int) : Decidable (Beyond n) := inferInstanceAs (Decidable (_ ∨ _))

/-! ## The turn of keys and values -/

/-- The open containers: maps or not, and whether a key is next. -/
def Ctx.shape (c : Ctx) : List (Bool × Bool) := c.levels.map fun level => (level.isMap, level.expectKey)

/-- After a value. -/
def doneShape : List (Bool × Bool) → List (Bool × Bool)
  | (true, key) :: outer => (true, !key) :: outer
  | shape => shape

def keyNext : List (Bool × Bool) → Bool
  | (isMap, key) :: _ => isMap && key
  | [] => false

theorem isKey_eq (c : Ctx) : c.isKey = keyNext c.shape := by
  rw [Ctx.isKey, Ctx.shape]
  cases c.levels <;> rfl

theorem depth_eq (c : Ctx) : c.depth = c.shape.length := by
  rw [Ctx.depth, Ctx.shape, List.length_map]

theorem valueDone_spec (c : Ctx) :
    (valueDone c).shape = doneShape c.shape ∧ (valueDone c).out = c.out ∧
      (valueDone c).haveRoot = c.haveRoot := by
  obtain ⟨levels, haveRoot, docs, path, positions, out⟩ := c
  cases levels with
  | nil => exact ⟨rfl, rfl, rfl⟩
  | cons level outer =>
      obtain ⟨isMap, expectKey, containerLen, nextIndex, keyEntry⟩ := level
      cases isMap <;> exact ⟨rfl, rfl, rfl⟩

theorem noteValue_spec (c : Ctx) (mark : Mark) :
    (noteValue c mark).shape = c.shape ∧ (noteValue c mark).out = c.out := by
  obtain ⟨levels, haveRoot, docs, path, positions, out⟩ := c
  cases levels with
  | nil => exact ⟨rfl, rfl⟩
  | cons level outer =>
      obtain ⟨isMap, expectKey, containerLen, nextIndex, keyEntry⟩ := level
      cases isMap <;> exact ⟨rfl, rfl⟩

theorem noteKey_spec (c : Ctx) (mark : Mark) (key : Bytes) :
    (noteKey c mark key).shape = c.shape ∧ (noteKey c mark key).out = c.out := by
  obtain ⟨levels, haveRoot, docs, path, positions, out⟩ := c
  cases levels <;> exact ⟨rfl, rfl⟩

end Qwe.Yaml
