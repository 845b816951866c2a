import Mathlib.Data.List.DropRight
import Qwe.Lib.Holes
import Qwe.Redact.Stream

/-!
# Expressions

`parse_expr`, `each_expr` and `substitute` of `src/kernel/lua/template.lua`.  A
Lua string is its bytes; the character classes are those of the C locale.
-/

set_option autoImplicit false

namespace Qwe.Template

open Qwe.Holes
open Qwe.Redact (Bytes)

/-- The bytes of a string literal. -/
def bytes (literal : String) : Bytes := literal.toUTF8.data.toList

/-! ## Names -/

def isLetter (b : UInt8) : Bool := (65 ≤ b && b ≤ 90) || (97 ≤ b && b ≤ 122)

def isDigit (b : UInt8) : Bool := 48 ≤ b && b ≤ 57

/-- `[A-Za-z0-9_]`, and the bytes of `extra`. -/
def isNameByte (extra : List UInt8) (b : UInt8) : Bool :=
  isLetter b || isDigit b || b == 95 || extra.contains b

/-- `[A-Za-z_]` and then any number of `isNameByte extra`. -/
def isNameWith (extra : List UInt8) : Bytes → Bool
  | [] => false
  | b :: rest => (isLetter b || b == 95) && rest.all (isNameByte extra)

/-- `[A-Za-z_][A-Za-z0-9_]*` -/
def isEnvName : Bytes → Bool := isNameWith []

/-- `NAME`: `[A-Za-z_][A-Za-z0-9_%-]*` -/
def isName : Bytes → Bool := isNameWith [45]

/-- `[A-Za-z_][A-Za-z0-9_.%-]*`, the user names `become:` takes. -/
def isUserName : Bytes → Bool := isNameWith [46, 45]

/-- `%s` -/
def isSpace (b : UInt8) : Bool := b == 32 || (9 ≤ b && b ≤ 13)

/-- `gsub("^%s+", ""):gsub("%s+$", "")` -/
def trim (s : Bytes) : Bytes := (s.dropWhile isSpace).rdropWhile isSpace

/-- What follows `front` in `s`, if `s` starts with it. -/
def after (front s : Bytes) : Option Bytes :=
  if front.isPrefixOf s then some (s.drop front.length) else none

/-! ## Expressions -/

inductive Expr where
  | env (name : Bytes)
  | vars (name : Bytes)
  | secrets (name : Bytes)
  | steps (step key : Bytes)
deriving DecidableEq, Repr

/-- `^steps%.(NAME)%.outputs%.(NAME)$`: a name has no dot, so it ends at the first. -/
def parseSteps (expr : Bytes) : Option Expr := do
  let rest ← after (bytes "steps.") expr
  let step := rest.takeWhile (isNameByte [45])
  let key ← after (bytes ".outputs.") (rest.dropWhile (isNameByte [45]))
  if isName step && isName key then some (.steps step key) else none

/-- `parse_expr`: the inside of `${{ }}`, or a message. -/
def parseExpr (expr : Bytes) : Except Bytes Expr :=
  match (after (bytes "env.") expr).filter isEnvName with
  | some name => .ok (.env name)
  | none =>
    match (after (bytes "vars.") expr).filter isName with
    | some name => .ok (.vars name)
    | none =>
      match (after (bytes "secrets.") expr).filter isName with
      | some name => .ok (.secrets name)
      | none =>
        match parseSteps expr with
        | some parsed => .ok parsed
        | none =>
          .error (bytes "unknown expression \"" ++ expr ++
            bytes "\" (only env.NAME, vars.NAME, secrets.NAME and steps.ID.outputs.KEY exist)")

/-- `%${{(.-)}}` -/
def marks : Marks UInt8 := { first := 36, more := [123, 123], closing := [125, 125] }

/-- `each_expr`: the text of every `${{ }}` in `s`, in order. -/
def eachExpr (s : Bytes) : List Bytes := (holes (segments marks s)).map trim

/-- The expressions of `s` that parse. -/
def exprsOf (s : Bytes) : List Expr := (eachExpr s).filterMap fun expr => (parseExpr expr).toOption

/-! ## Substitution -/

/-- What a resolver returns: the value, whether its second result is true, and
the plaintexts `qwe.secrets.reveal` added to the redaction set on the way. -/
structure Found where
  value : Option Bytes
  secret : Bool
  revealed : List Bytes

/-- A text with its templates evaluated, and what joined the redaction set. -/
structure Filled where
  text : Bytes
  masked : List Bytes

/-- What takes the place of `${{ inner }}`. -/
def valueOf (resolve : Expr → Found) (inner : Bytes) : Bytes :=
  match parseExpr (trim inner) with
  | .error _ => []
  | .ok parsed => (resolve parsed).value.getD []

/-- The string that `substitute` returns. -/
def substituted (resolve : Expr → Found) (s : Bytes) : Bytes :=
  fill (valueOf resolve) (segments marks s)

def Expr.isSecrets : Expr → Bool
  | .secrets _ => true
  | _ => false

/-- `substitute`: a result that came from a secret makes the whole string secret. -/
def substitute (resolve : Expr → Found) (s : Bytes) : Filled :=
  let out := substituted resolve s
  let tainted := (exprsOf s).any fun parsed => parsed.isSecrets || (resolve parsed).secret
  { text := out
    masked := (exprsOf s).flatMap (fun parsed => (resolve parsed).revealed) ++
      if tainted then [out] else [] }

/-! ## What substitution depends on -/

variable {f g : Expr → Found} {s : Bytes}

theorem mem_exprsOf {parsed : Expr} :
    parsed ∈ exprsOf s ↔
      ∃ inner ∈ holes (segments marks s), parseExpr (trim inner) = .ok parsed := by
  simp only [exprsOf, eachExpr, List.mem_filterMap, List.mem_map]
  constructor
  · rintro ⟨expr, ⟨inner, present, rfl⟩, parses⟩
    refine ⟨inner, present, ?_⟩
    cases result : parseExpr (trim inner) with
    | error message => rw [result] at parses; cases parses
    | ok other => rw [result] at parses; cases parses; rfl
  · rintro ⟨inner, present, parses⟩
    exact ⟨trim inner, ⟨inner, present, rfl⟩, by rw [parses]; rfl⟩

/-- A text without `$` is its own value. -/
theorem substituted_plain (plain : 36 ∉ s) : substituted f s = s := by
  rw [substituted, segments_plain marks plain, fill_map_text]

theorem eachExpr_plain (plain : 36 ∉ s) : eachExpr s = [] := by
  rw [eachExpr, segments_plain marks plain, holes_map_text]
  rfl

theorem mem_eachExpr_of_mem_exprsOf {parsed : Expr} (read : parsed ∈ exprsOf s) :
    ∃ expr ∈ eachExpr s, parseExpr expr = .ok parsed := by
  obtain ⟨inner, present, parses⟩ := mem_exprsOf.mp read
  exact ⟨trim inner, List.mem_map_of_mem present, parses⟩

/-! ## What a name does not hold -/

theorem isNameByte_ne {extra : List UInt8} {c : UInt8} (absent : c ∉ extra)
    (other : isNameByte [] c = false) {b : UInt8} (named : isNameByte extra b = true) : b ≠ c := by
  rintro rfl
  simp only [isNameByte, List.contains_eq_mem, List.not_mem_nil, decide_false, Bool.or_false]
    at other named
  rw [other, decide_eq_false absent] at named
  cases named

theorem not_mem_name {extra : List UInt8} {c : UInt8} (absent : c ∉ extra)
    (other : isNameByte [] c = false) (first : (isLetter c || c == 95) = false) {s : Bytes}
    (named : isNameWith extra s = true) : c ∉ s := by
  cases s with
  | nil => exact List.not_mem_nil
  | cons b rest =>
      rw [isNameWith, Bool.and_eq_true, List.all_eq_true] at named
      rw [List.mem_cons, not_or]
      refine ⟨?_, fun present => isNameByte_ne absent other (named.2 c present) rfl⟩
      rintro rfl
      rw [first] at named
      cases named.1

end Qwe.Template
