import Qwe.Schema.Keywords

/-!
# Validation of an inventory

`check` of `src/kernel/lua/validate.lua` and `validate` of
`src/kernel/lua/inventory.lua`.  Lua raises where a value that has no fields is
indexed, `name:match` of a number included; such a call has no result here but the
value.

The checks behind the schema run whatever the schema has found, so they meet every
shape of document.
-/

set_option autoImplicit false

namespace Qwe.Schema

open Qwe.Redact (Bytes)
open Qwe.Template (bytes esc isName quoted Problem Place decimalNat bytesLe)

/-! ## The problems of a schema -/

def endsWith (s : Bytes) (tail : String) : Bool := (bytes tail).isSuffixOf s

/-- `gsub` of a tilde and one more byte. -/
def replaceTilde (second by_ : UInt8) : Bytes → Bytes
  | [] => []
  | [b] => [b]
  | b :: c :: rest =>
      if b = 126 ∧ c = second then by_ :: replaceTilde second by_ rest
      else b :: replaceTilde second by_ (c :: rest)

def unesc (token : Bytes) : Bytes := replaceTilde 48 126 (replaceTilde 49 47 token)

def lastToken (pointer : Bytes) : Bytes := unesc (pointer.rtakeWhile (· != 47))

/-- One line of `check`.  A line of `allOf` only says that some branch inside failed. -/
def describeLine (o : Output) : Option Problem :=
  if ["/allOf", "/anyOf", "/oneOf"].any (endsWith o.keywordLocation) then none
  else if endsWith o.keywordLocation "/additionalProperties" then
    some ⟨o.instanceLocation, .key, bytes "unknown key " ++ quoted (lastToken o.instanceLocation)⟩
  else some ⟨o.instanceLocation, .value, o.error.getD (bytes "invalid value")⟩

/-- `M.check` -/
def check (schema : List Keyword) (d : Doc) : List Problem :=
  (outputs schema [] [] [] d).filterMap describeLine

/-! ## The schema of an inventory -/

def varsSchema : List Keyword :=
  [type [.object], additionalProperties [] [type [.string, .number, .boolean]]]

def targetKeys : List String :=
  ["backend", "host", "max-sessions", "disabled", "become-password", "vars", "secrets"]

def targetSchema : List Keyword :=
  [type [.object],
   required ["backend"],
   additionalProperties targetKeys never,
   properties
     [("backend", [enum [bytes "ssh"]]),
      ("host", [type [.string], minLength 1]),
      ("max-sessions", [type [.integer], minimum 1]),
      ("disabled", [type [.string], minLength 1]),
      ("become-password", [type [.string]]),
      ("vars", ref varsSchema),
      ("secrets", [type [.object]])],
   allOf
     [[if_ [properties [("backend", [const (bytes "ssh")])], required ["backend"]]
        [required ["host"]] []]]]

/-- `inventory.schema.json` -/
def inventorySchema : List Keyword :=
  [type [.object],
   additionalProperties ["secrets", "targets"] never,
   properties
     [("secrets", [type [.object]]),
      ("targets", [type [.object], additionalProperties [] (ref targetSchema)])]]

/-! ## Envelopes -/

/-- A token of the path that `walk` keeps. -/
inductive Token where
  | key (text : Bytes)
  | index (i : Nat)
deriving DecidableEq

/-- `allowed`: the path of an entry of a `secrets:` map. -/
def allowed (tokens : List Token) : Bool :=
  if tokens[0]? = some (.key (bytes "secrets")) then tokens.length == 2
  else tokens[0]? = some (.key (bytes "targets")) && tokens[2]? = some (.key (bytes "secrets")) &&
    tokens.length == 4

/-- What is found under keys, in the order of the keys. -/
def inKeyOrder (found : List (Bytes × List Bytes)) : List Bytes :=
  (found.insertionSort fun a b => bytesLe a.1 b.1 = true).flatMap Prod.snd

mutual

/-- `walk`: the pointers of the envelopes where none is allowed. -/
def outside (tokens : List Token) (pointer : Bytes) : Doc → List Bytes
  | .secret _ => if allowed tokens then [] else [pointer]
  | .array items => outsideItems tokens pointer 0 items
  | .map fields => inKeyOrder (outsideFields tokens pointer fields)
  | _ => []

def outsideItems (tokens : List Token) (pointer : Bytes) (i : Nat) : List Doc → List Bytes
  | [] => []
  | item :: rest =>
      outside (tokens ++ [.index i]) (pointer ++ bytes "/" ++ decimalNat i) item ++
        outsideItems tokens pointer (i + 1) rest

def outsideFields (tokens : List Token) (pointer : Bytes) :
    List (Bytes × Doc) → List (Bytes × List Bytes)
  | [] => []
  | (key, item) :: rest =>
      (key, outside (tokens ++ [.key key]) (pointer ++ bytes "/" ++ esc key) item) ::
        outsideFields tokens pointer rest

end

/-- `M.envelope_errors` -/
def envelopeErrors (d : Doc) : List Problem :=
  (outside [] [] d).map fun pointer =>
    ⟨pointer, .value, bytes "an !encrypted value can only be an entry of a secrets: map"⟩

/-! ## Calls that may raise -/

/-- The value that was indexed; nothing is `nil`. -/
abbrev Raised := Option Doc

/-- Tables can be indexed, and strings, which have the functions of the string library:
none of them is called like a key that is read here. -/
def indexable : Option Doc → Bool
  | some (.map _) => true
  | some (.secret _) => true
  | some (.array _) => true
  | some (.string _) => true
  | _ => false

/-- `v[key]` -/
def index (v : Option Doc) (key : Bytes) : Except Raised (Option Doc) :=
  if indexable v then .ok (v.bind (Doc.get key)) else .error v

/-- A key that `pairs` visits. -/
inductive Key where
  | position (i : Nat)
  | name (s : Bytes)

/-- `tostring(key)` -/
def Key.text : Key → Bytes
  | .position i => decimalNat i
  | .name s => s

/-- `key:match(NAME)` -/
def Key.isName : Key → Except Raised Bool
  | .position i => .error (some (.number (.finite i)))
  | .name s => .ok (Template.isName s)

def Doc.pairs : Doc → List (Key × Doc)
  | .map fields => fields.map fun entry => (.name entry.1, entry.2)
  | .array items => items.zipIdx.map fun entry => (.position (entry.2 + 1), entry.1)
  | .secret s => [(.name (bytes "value"), .string s)]
  | _ => []

/-- A loop that appends to a list and may raise. -/
def collect {α : Type} (f : α → Except Raised (List Problem)) :
    List α → Except Raised (List Problem)
  | [] => .ok []
  | x :: rest => do
      let own ← f x
      let others ← collect f rest
      return own ++ others

section Validate

-- `qwe.secrets.check`, with its reason where the text is no envelope, and `tostring`
variable (secretsCheck : Bytes → Option Bytes) (tostring : Option Doc → Bytes)

/-- What an entry of a `secrets:` map is reported for besides its name. -/
def envelopeProblem (pointer : Bytes) : Doc → List Problem
  | .secret s =>
      match secretsCheck s with
      | none => []
      | some why => [⟨pointer, .value, bytes "not a valid envelope: " ++ why⟩]
  | _ =>
      [⟨pointer, .value, bytes "a secret must be an !encrypted value (make one with: " ++
        bytes "printf %s \"...\" | qwe encrypt)"⟩]

def secretEntryErrors (pointer : Bytes) (entry : Key × Doc) : Except Raised (List Problem) := do
  let location := pointer ++ bytes "/" ++ esc entry.1.text
  let named ← entry.1.isName
  let problem : Problem := ⟨location, .key,
    bytes "secret name " ++ quoted entry.1.text ++ bytes " must match [A-Za-z_][A-Za-z0-9_-]*"⟩
  return (if named then [] else [problem]) ++ envelopeProblem secretsCheck location entry.2

/-- `M.secret_map_errors` -/
def secretMapErrors (map : Option Doc) (pointer : Bytes) : Except Raised (List Problem) :=
  match map with
  | some d => collect (secretEntryErrors secretsCheck pointer) d.pairs
  | none => .ok []

/-- `pointer:match("^/targets/([^/]+)/<key>$")` -/
def targetToken (key : String) (pointer : Bytes) : Option Bytes :=
  match Template.after (bytes "/targets/") pointer with
  | none => none
  | some rest =>
      let token := rest.takeWhile (· != 47)
      if token ≠ [] ∧ rest.dropWhile (· != 47) = bytes "/" ++ bytes key then some token else none

/-- The message that `validate` gives of a bad `disabled:`. -/
def rewordDisabled (e : Problem) : Problem :=
  let note := bytes "disabled: must be a non-empty string saying why the target is out of " ++
    bytes "service (for example \"in for repair\")"
  if (targetToken "disabled" e.pointer).isSome then { e with message := note } else e

/-- The message that it gives of an unknown backend, which it looks up again. -/
def rewordBackend (inv : Doc) (e : Problem) : Except Raised Problem :=
  match targetToken "backend" e.pointer with
  | none => .ok e
  | some token => do
      let targets ← index (some inv) (bytes "targets")
      let target ← index targets token
      let backend ← index target (bytes "backend")
      let unknown := bytes "unknown backend " ++ quoted (tostring backend) ++
        bytes " (supported: ssh)"
      return { e with message := unknown }

def targetSecretErrors (entry : Key × Doc) : Except Raised (List Problem) :=
  if entry.2.isTable then
    secretMapErrors secretsCheck (entry.2.field "secrets")
      (bytes "/targets/" ++ esc entry.1.text ++ bytes "/secrets")
  else .ok []

def varErrors (pointer : Bytes) (entry : Key × Doc) : Except Raised (List Problem) := do
  let named ← entry.1.isName
  let problem : Problem := ⟨pointer ++ bytes "/vars/" ++ esc entry.1.text, .key,
    bytes "var name " ++ quoted entry.1.text ++ bytes " must match [A-Za-z_][A-Za-z0-9_-]*"⟩
  return if named then [] else [problem]

def targetVarErrors (entry : Key × Doc) : Except Raised (List Problem) :=
  match entry.2.field "vars" with
  | some vars => collect (varErrors (bytes "/targets/" ++ esc entry.1.text)) vars.pairs
  | none => .ok []

/-- `inv.targets`, where it is a table. -/
def targetsOf (inv : Doc) : List (Key × Doc) :=
  match inv.field "targets" with
  | some d => d.pairs
  | none => []

def localErrors (inv : Doc) : List Problem :=
  if ((inv.field "targets").bind (Doc.field "local")).isSome then
    [⟨bytes "/targets/local", .key,
      bytes "\"local\" is built in and cannot be defined in the inventory"⟩]
  else []

/-- `M.validate`, on a table. -/
def validate (inv : Doc) : Except Raised (List Problem) := do
  let envelopes := envelopeErrors inv
  let reworded ← collect (fun e => do return [← rewordBackend tostring inv (rewordDisabled e)])
    (check inventorySchema inv)
  -- the same value may be reported as an envelope in the wrong place already
  let kept := reworded.filter fun e => !(envelopes.map Problem.pointer).contains e.pointer
  let rootSecrets ← secretMapErrors secretsCheck (inv.field "secrets") (bytes "/secrets")
  let secrets ← collect (targetSecretErrors secretsCheck) (targetsOf inv)
  let vars ← collect targetVarErrors (targetsOf inv)
  return envelopes ++ kept ++ rootSecrets ++ localErrors inv ++ secrets ++ vars

end Validate

end Qwe.Schema
