import Mathlib.Data.List.Sort
import Qwe.Lib.Numerals
import Qwe.Lib.Tables
import Qwe.Template.Expr

/-!
# Workflows and inventories

The documents that `src/kernel/lua/workflow.schema.json` and
`inventory.schema.json` admit, as far as templates read them, and the lookups
of `src/kernel/lua/inventory.lua`.  The names of the workflow and of its jobs,
timeouts, `needs:` and `continue-on-error:` are not read here and are left out.
-/

set_option autoImplicit false

namespace Qwe.Template

open Qwe.Redact (Bytes)

/-- `[0-9A-Za-z.+-]`, the bytes `tostring` prints a number with. -/
def isNumeral (b : UInt8) : Bool := isDigit b || isLetter b || [46, 43, 45].contains b

/-- A text that `tostring` prints for a number. -/
structure Printed where
  text : Bytes
  numeral : text.all isNumeral = true
deriving DecidableEq, Repr

/-- A Lua number.  One that is not integral is only ever printed, so its text
stands for it. -/
inductive Number where
  | integral (n : Int)
  | infinite (negative : Bool)
  | fractional (shown : Printed)
deriving DecidableEq, Repr

inductive Scalar where
  | string (s : Bytes)
  | number (n : Number)
  | boolean (b : Bool)
deriving DecidableEq, Repr

/-- A decoded value. -/
inductive Data where
  | scalar (value : Scalar)
  | null
  | secret (envelope : Bytes)
  | array (items : List Data)
  | map (entries : List (Bytes × Data))

/-- `become:` is a boolean, a user name or a uid. -/
inductive Become where
  | flag (b : Bool)
  | user (name : Bytes)
  | uid (n : Int)
deriving DecidableEq, Repr

/-- A step has either `run:` or `uses:`. -/
inductive StepKind where
  | run (script : Bytes)
  | uses (plugin : Bytes)
deriving DecidableEq, Repr

structure Step where
  id : Option Bytes := none
  name : Option Bytes := none
  kind : StepKind
  with_ : Option (List (Bytes × Data)) := none
  env : Table Bytes Scalar := ∅
  /-- `on: local`, the only value `on:` takes. -/
  onLocal : Bool := false
  become : Option Become := none
  secretOutputs : List Bytes := []

def Step.run (step : Step) : Option Bytes :=
  match step.kind with
  | .run script => some script
  | .uses _ => none

def Step.uses (step : Step) : Option Bytes :=
  match step.kind with
  | .run _ => none
  | .uses plugin => some plugin

structure Job where
  target : Bytes
  env : Table Bytes Scalar := ∅
  steps : List Step

/-- The entries of a `secrets:` map are envelopes. -/
structure Workflow where
  env : Table Bytes Scalar := ∅
  secrets : Table Bytes Bytes := ∅
  jobs : Table Bytes Job

/-- An ssh target, the only kind there is. -/
structure Target where
  host : Bytes
  vars : Table Bytes Scalar := ∅
  secrets : Table Bytes Bytes := ∅

structure Inventory where
  secrets : Table Bytes Bytes := ∅
  targets : Table Bytes Target := ∅

/-- The outputs that the loaded plugins declare, where they declare any, each
with its `secret` flag. -/
abbrev Plugins := Table Bytes (Table Bytes Bool)

/-! ## Numbers and names in texts -/

def decimalNat (n : Nat) : Bytes :=
  if n = 0 then [48] else (Nat.digits 10 n).reverse.map fun d => (48 + d).toUInt8

def decimal (n : Int) : Bytes :=
  if n < 0 then 45 :: decimalNat n.natAbs else decimalNat n.natAbs

/-- The conversion of a number to `int64_t`: what is out of range becomes the least. -/
def toInt64 (n : Int) : Int := if -2 ^ 63 ≤ n ∧ n < 2 ^ 63 then n else -2 ^ 63

/-- `string.format("%d", n)` -/
def formatInt (n : Int) : Bytes := decimal (toInt64 n)

theorem digit_of_mem_decimalNat {n : Nat} {d : UInt8} (inside : d ∈ decimalNat n) :
    48 ≤ d.toNat ∧ d.toNat < 48 + 10 :=
  Numerals.isNumeral_numeral (by decide) (by decide) n d inside

theorem isDigit_of_mem_decimalNat {n : Nat} {d : UInt8} (inside : d ∈ decimalNat n) :
    isDigit d = true := by
  have digit := digit_of_mem_decimalNat inside
  rw [isDigit, Bool.and_eq_true, decide_eq_true_eq, decide_eq_true_eq, UInt8.le_iff_toNat_le,
    UInt8.le_iff_toNat_le]
  simp only [UInt8.reduceToNat]
  omega

theorem bytes_ofList (a : List Char) :
    bytes (String.ofList a) = a.flatMap String.utf8EncodeChar := by
  have encoded : (String.ofList a).toUTF8 = a.utf8Encode := String.toByteArray_ofList
  rw [bytes, encoded, List.utf8Encode]
  simp

theorem utf8_digitChar {d : Nat} (below : d < 10) :
    String.utf8EncodeChar (Nat.digitChar d) = [(48 + d).toUInt8] := by
  revert d
  decide

/-- `%lu` -/
theorem bytes_toString (i : Nat) : bytes (toString i) = decimalNat i := by
  rw [Nat.toString_eq_ofList_toDigits, bytes_ofList]
  change _ = Numerals.numeral 10 i
  induction i using Nat.strongRecOn with
  | ind i inductionHypothesis =>
      rw [Nat.toDigits_eq_if (by decide), Numerals.numeral_eq_if (by decide)]
      split_ifs with small
      · rw [List.flatMap_singleton, utf8_digitChar small]
      · rw [List.flatMap_append, List.flatMap_singleton, utf8_digitChar (Nat.mod_lt _ (by decide)),
          inductionHypothesis (i / 10) (by omega)]

theorem decimalNat_injective {m n : Nat} (same : decimalNat m = decimalNat n) : m = n :=
  Numerals.numeral_injective (b := 10) (by decide) (by decide) same

theorem dollar_not_mem_decimalNat (n : Nat) : 36 ∉ decimalNat n := by
  intro present
  have digit := digit_of_mem_decimalNat present
  simp only [UInt8.reduceToNat] at digit
  omega

theorem dollar_not_mem_decimal (n : Int) : 36 ∉ decimal n := by
  unfold decimal
  split_ifs
  · rw [List.mem_cons, not_or]
    exact ⟨by decide, dollar_not_mem_decimalNat _⟩
  · exact dollar_not_mem_decimalNat _

theorem zero_notMem_decimal (n : Int) : 0 ∉ decimal n := by
  have clean : 0 ∉ decimalNat n.natAbs := fun present =>
    absurd (digit_of_mem_decimalNat present).1 (by decide)
  unfold decimal
  split_ifs
  · rw [List.mem_cons, not_or]
    exact ⟨by decide, clean⟩
  · exact clean

theorem Printed.dollar_not_mem (shown : Printed) : 36 ∉ shown.text := by
  intro present
  have numeral := List.all_eq_true.mp shown.numeral 36 present
  exact absurd numeral (by decide)

/-- The order of strings in `table.sort`. -/
def bytesLe : Bytes → Bytes → Bool
  | [], _ => true
  | _ :: _, [] => false
  | a :: as, b :: bs => a < b || (a == b && bytesLe as bs)

def sorted (names : List Bytes) : List Bytes := names.insertionSort fun a b => bytesLe a b = true

/-! ## The inventory's answers -/

/-- The target that needs no inventory. -/
def localTarget : Bytes := bytes "local"

namespace Inventory

/-- `has_target` -/
def hasTarget (inventory : Inventory) (name : Bytes) : Bool :=
  name == localTarget || (inventory.targets.lookup name).isSome

/-- `vars`: nothing for a target that does not exist. -/
def vars (inventory : Inventory) (target : Bytes) : Option (Table Bytes Scalar) :=
  if target = localTarget then some ∅
  else (inventory.targets.lookup target).map Target.vars

/-- `secrets_for`: what a job on `target` can name, the workflow's own aside.
Without a target only the inventory-wide map counts. -/
def secretsFor (inventory : Inventory) (target : Option Bytes) : Table Bytes Bytes :=
  let out := Table.putAll (fun _ s => s) ∅ inventory.secrets
  match target.bind inventory.targets.lookup with
  | none => out
  | some t => Table.putAll (fun _ s => s) out t.secrets

/-- `target_names`: `local`, then the others in order. -/
def targetNames (inventory : Inventory) : List Bytes :=
  localTarget :: sorted (inventory.targets.keys.filter (· ≠ localTarget))

end Inventory

/-- The secrets in scope for `target`: the inventory's and the workflow's. -/
def secretScope (workflow : Workflow) (inventory : Inventory) (target : Option Bytes) :
    Table Bytes Bytes :=
  Table.putAll (fun _ s => s) (inventory.secretsFor target) workflow.secrets

/-- A secret in scope without a target is in scope with one. -/
theorem mem_secretScope_target {workflow : Workflow} {inventory : Inventory} {name target : Bytes}
    (visible : ((secretScope workflow inventory none).lookup name).isSome) :
    ((secretScope workflow inventory (some target)).lookup name).isSome := by
  rw [secretScope, Table.lookup_putAll] at visible ⊢
  cases own : workflow.secrets.lookup name with
  | some envelope => rfl
  | none =>
      rw [own] at visible
      simp only [Option.map_none, Option.none_or] at visible ⊢
      have shared : ((Table.putAll (fun _ s => s) ∅ inventory.secrets).lookup name).isSome :=
        visible
      rw [Inventory.secretsFor]
      cases found : (some target).bind inventory.targets.lookup with
      | none => exact shared
      | some t =>
          simp only [Table.lookup_putAll _ _ t.secrets]
          rw [Option.isSome_or, shared, Bool.or_true]

end Qwe.Template
