import Qwe.Lua.Cbor

/-!
# YAML events to CBOR

`handle_event` of `src/edge/yaml/transcode.c` and what it calls, over the events
libyaml delivers.  The encoders of the open containers write to one buffer, so
they are the heads written so far; the arrays indexed by `depth` are a list with
the innermost container first.  Allocations succeed and the buffer is as large as
it has to be.
-/

set_option autoImplicit false

namespace Qwe.Yaml

open Qwe.Cbor Qwe.Lua
open Qwe.Redact (Bytes)
open Qwe.Template (bytes isDigit)

/-- `QWE_YAML_MAX_DEPTH` -/
def yamlMaxDepth : Nat := 64

/-- `ENCRYPTED_TAG` -/
def encryptedTag : Bytes := bytes "!encrypted"

/-! ## Events -/

/-- `yaml_mark_t` -/
structure Mark where
  line : Nat
  column : Nat
deriving DecidableEq, Repr

/-- A scalar event's data; an anchor is only tested for. -/
structure ScalarData where
  value : Bytes
  /-- `YAML_PLAIN_SCALAR_STYLE` -/
  plain : Bool
  tag : Option Bytes
  anchor : Bool
deriving DecidableEq, Repr

inductive EventKind where
  | streamStart
  | documentStart
  | documentEnd
  | alias
  | scalar (data : ScalarData)
  | start (isMap : Bool) (tag : Option Bytes) (anchor : Bool)
  | finish (isMap : Bool)
deriving DecidableEq, Repr

structure Event where
  kind : EventKind
  startMark : Mark
deriving DecidableEq, Repr

/-! ## The context -/

/-- An entry of the position table: `qwe_positions_add` with the key's or the
value's place. -/
structure Entry where
  pointer : Bytes
  key : Option Mark
  value : Option Mark
deriving DecidableEq, Repr

/-- What the arrays of `struct ctx` hold for one open container. -/
structure Level where
  isMap : Bool
  /-- in a map: the next scalar is a key -/
  expectKey : Bool
  /-- the length of the container's pointer -/
  containerLen : Nat
  nextIndex : Nat
  /-- the table entry of the key just read -/
  keyEntry : Nat
deriving DecidableEq, Repr

structure Ctx where
  levels : List Level
  haveRoot : Bool
  docs : Nat
  /-- the JSON Pointer of the node being visited -/
  path : Bytes
  positions : List Entry
  out : List (Token Number)

def Ctx.initial : Ctx := ⟨[], false, 0, [], [], []⟩

def Ctx.depth (c : Ctx) : Nat := c.levels.length

/-- What `fail` prints, and where. -/
structure Failure where
  mark : Mark
  message : Bytes
deriving DecidableEq, Repr

def fail {α : Type} (mark : Mark) (message : String) : Except Failure α :=
  .error ⟨mark, bytes message⟩

/-! ## JSON Pointers and positions -/

/-- One reference token, with `~` and `/` escaped. -/
def escapeKey (key : Bytes) : Bytes :=
  key.flatMap fun b => if b == 126 then bytes "~0" else if b == 47 then bytes "~1" else [b]

def pathPushKey (path key : Bytes) : Bytes := path ++ [47] ++ escapeKey key

def pathPushIndex (path : Bytes) (i : Nat) : Bytes := path ++ [47] ++ bytes (toString i)

/-- `to_pos` -/
def toPos (mark : Mark) : Mark := ⟨mark.line + 1, mark.column + 1⟩

def noteValue (c : Ctx) (mark : Mark) : Ctx :=
  match c.levels with
  | [] => { c with path := [], positions := c.positions ++ [⟨[], none, some (toPos mark)⟩] }
  | level :: outer =>
      if level.isMap then
        { c with positions := c.positions.modify level.keyEntry fun e =>
            { e with value := some (toPos mark) } }
      else
        let path := pathPushIndex (c.path.take level.containerLen) level.nextIndex
        { c with
          path := path
          levels := { level with nextIndex := level.nextIndex + 1 } :: outer
          positions := c.positions ++ [⟨path, none, some (toPos mark)⟩] }

/-- `note_key`, inside a map. -/
def noteKey (c : Ctx) (mark : Mark) (key : Bytes) : Ctx :=
  match c.levels with
  | [] => c
  | level :: outer =>
      let path := pathPushKey (c.path.take level.containerLen) key
      { c with
        path := path
        levels := { level with keyEntry := c.positions.length } :: outer
        positions := c.positions ++ [⟨path, some (toPos mark), none⟩] }

/-! ## Scalars -/

/-- What follows an optional sign. -/
def dropSign : Bytes → Bytes
  | 45 :: rest => rest
  | 43 :: rest => rest
  | s => s

def isInt (s : Bytes) : Bool :=
  let digits := dropSign s
  if digits.length = 0 ∨ digits.length > 18 then false else digits.all isDigit

def isFloat (s : Bytes) : Bool :=
  let rest := dropSign s
  let whole := rest.takeWhile isDigit
  let rest := rest.dropWhile isDigit
  let (dot, digits, rest) :=
    match rest with
    | 46 :: tail =>
        (true, whole.length + (tail.takeWhile isDigit).length, tail.dropWhile isDigit)
    | _ => (false, whole.length, rest)
  if digits = 0 then false
  else
    match rest with
    | [] => dot
    | b :: tail =>
        if b == 101 || b == 69 then
          let tail := dropSign tail
          (tail.takeWhile isDigit).length ≠ 0 ∧ (tail.dropWhile isDigit).isEmpty
        else false

/-- The value of a run of decimal digits. -/
def digitsValue (digits : Bytes) : Nat :=
  digits.foldl (fun n b => 10 * n + (b.toNat - 48)) 0

/-- `strtoll`, on the texts `isInt` admits. -/
def strtoll (s : Bytes) : Int :=
  match s with
  | 45 :: digits => -digitsValue digits
  | 43 :: digits => digitsValue digits
  | digits => digitsValue digits

def isNullText (s : Bytes) : Bool :=
  s.length == 0 || s == bytes "~" || s == bytes "null" || s == bytes "Null" || s == bytes "NULL"

def isTrueText (s : Bytes) : Bool := s == bytes "true" || s == bytes "True" || s == bytes "TRUE"

def isFalseText (s : Bytes) : Bool := s == bytes "false" || s == bytes "False" || s == bytes "FALSE"

section
variable (strtod : Bytes → Number)

/-- `scalar`: the heads it writes. -/
def scalar (mark : Mark) (data : ScalarData) (asKey : Bool) : Except Failure (List (Token Number)) :=
  match data.tag with
  | some tag =>
      if asKey ∨ cString tag ≠ encryptedTag then fail mark "unknown tag"
      else .ok [.tag secretTag, .text data.value]
  | none =>
      if !asKey && data.plain then
        if isNullText data.value then .ok [.null]
        else if isTrueText data.value then .ok [.bool true]
        else if isFalseText data.value then .ok [.bool false]
        else if isInt data.value then .ok [.int (strtoll data.value)]
        else if isFloat data.value then .ok [.double (strtod data.value)]
        else .ok [.text data.value]
      else .ok [.text data.value]

/-! ## Events, one at a time -/

/-- `check_props` -/
def checkProps (mark : Mark) (anchor : Bool) (tag : Option Bytes) (tagOk : Bool) :
    Except Failure Unit :=
  if anchor then fail mark "anchors are not supported"
  else
    match tag with
    | none => .ok ()
    | some tag =>
        if tagOk ∧ cString tag = encryptedTag then .ok ()
        else .error ⟨mark, bytes "unknown tag " ++ (cString tag).take 80⟩

/-- `open_container` -/
def openContainer (c : Ctx) (mark : Mark) (isMap : Bool) : Except Failure Ctx :=
  if c.depth ≥ yamlMaxDepth then fail mark "nesting too deep"
  else .ok { c with
    levels := ⟨isMap, true, c.path.length, 0, 0⟩ :: c.levels
    out := c.out ++ [if isMap then .map none else .array none] }

/-- `value_done`: after a value lands in a map, the next scalar is a key again. -/
def valueDone (c : Ctx) : Ctx :=
  match c.levels with
  | [] => c
  | level :: outer =>
      if level.isMap then { c with levels := { level with expectKey := !level.expectKey } :: outer }
      else c

/-- `is_key` of `handle_event` -/
def Ctx.isKey (c : Ctx) : Bool :=
  match c.levels with
  | [] => false
  | level :: _ => level.isMap && level.expectKey

/-- `handle_event` -/
def handleEvent (c : Ctx) (ev : Event) : Except Failure Ctx :=
  match ev.kind with
  | .streamStart => .ok c
  | .documentEnd => .ok c
  | .documentStart =>
      if c.docs + 1 > 1 then fail ev.startMark "more than one YAML document"
      else .ok { c with docs := c.docs + 1 }
  | .alias => fail ev.startMark "aliases are not supported"
  | .scalar data =>
      match checkProps ev.startMark data.anchor data.tag (!c.isKey) with
      | .error e => .error e
      | .ok () =>
          if c.isKey ∧ data.plain ∧ data.value = bytes "<<" then
            fail ev.startMark "merge keys are not supported"
          else
            let noted := if c.isKey then noteKey c ev.startMark data.value else noteValue c ev.startMark
            match scalar strtod ev.startMark data c.isKey with
            | .error e => .error e
            | .ok heads => .ok (valueDone { noted with out := noted.out ++ heads, haveRoot := true })
  | .start isMap tag anchor =>
      match checkProps ev.startMark anchor tag false with
      | .error e => .error e
      | .ok () =>
          if c.isKey then fail ev.startMark "map keys must be scalars"
          else if c.depth ≥ yamlMaxDepth then fail ev.startMark "nesting too deep"
          else
            match openContainer (noteValue c ev.startMark) ev.startMark isMap with
            | .error e => .error e
            | .ok c => .ok { c with haveRoot := true }
  | .finish isMap =>
      match c.levels with
      | [] => fail ev.startMark "unbalanced end of a map or sequence"
      | level :: outer =>
          if isMap ≠ level.isMap then fail ev.startMark "unbalanced end of a map or sequence"
          else .ok (valueDone { c with levels := outer, out := c.out ++ [.stop] })

/-- The loop of `encode`, up to the end of the stream. -/
def handleEvents (c : Ctx) : List Event → Except Failure Ctx
  | [] => .ok c
  | ev :: rest =>
      match handleEvent strtod c ev with
      | .error e => .error e
      | .ok c => handleEvents c rest

/-- `encode`, once the parser has delivered its events. -/
def encode (events : List Event) : Except Failure (List (Token Number)) :=
  match handleEvents strtod .initial events with
  | .error e => .error e
  | .ok c => if c.haveRoot then .ok c.out else fail ⟨0, 0⟩ "empty document"

end

end Qwe.Yaml
