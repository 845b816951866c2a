import Qwe.Schema.Inventory

/-!
# Validation of a workflow

`compose` and `validate` of `src/kernel/lua/validate.lua` on a decoded document.  What
the `with:` schema of a plugin says about a value is the plugin's own matter here: it
is what lua-schema reports under the schema's location and at the value's pointer.

The checks that the schema cannot express read a document that the schema has passed,
so that they are those of a typed workflow.
-/

set_option autoImplicit false

namespace Qwe.Schema

open Qwe.Lua (Number)
open Qwe.Redact (Bytes)
open Qwe.Template (bytes esc quoted Problem Place decimalNat Scalar Data Become Step StepKind Job
  Workflow Plugins isDigit)

/-! ## More keywords -/

def greater (n : Number) (min : Int) : Bool :=
  match n with
  | .finite q => decide ((min : Rat) < q)
  | .infinite negative => !negative
  | .nan => false

def exclusiveMinimum (min : Int) : Keyword := fun own _ pointer d =>
  match d with
  | .number n =>
      if greater n min then []
      else [failed own pointer "exclusiveMinimum" (bytes "must be > " ++ bytes (toString min))]
  | _ => []

def atMost (n : Number) (max : Int) : Bool :=
  match n with
  | .finite q => decide (q ≤ (max : Rat))
  | .infinite negative => negative
  | .nan => false

def maximum (max : Int) : Keyword := fun own _ pointer d =>
  match d with
  | .number n =>
      if atMost n max then []
      else [failed own pointer "maximum" (bytes "must be <= " ++ bytes (toString max))]
  | _ => []

def items (schema : List Keyword) : Keyword := fun _ base pointer d =>
  match d with
  | .array elements =>
      elements.zipIdx.flatMap fun entry =>
        sub schema (under base "items") (pointer ++ bytes "/" ++ bytes (toString entry.2)) entry.1
  | _ => []

def minItems (min : Nat) : Keyword := fun own _ pointer d =>
  match d with
  | .array elements =>
      if min ≤ elements.length then []
      else [failed own pointer "minItems"
        (bytes "must NOT have fewer than " ++ bytes (toString min) ++ bytes " items")]
  | _ => []

def minProperties (min : Nat) : Keyword := fun own _ pointer d =>
  match d with
  | .map fields =>
      if min ≤ fields.length then []
      else [failed own pointer "minProperties"
        (bytes "must NOT have fewer than " ++ bytes (toString min) ++ bytes " properties")]
  | _ => []

def sameScalar : Doc → Doc → Bool
  | .null, .null => true
  | .boolean a, .boolean b => a == b
  | .number a, .number b => a == b
  | .string a, .string b => a == b
  | _, _ => false

/-- `uniqueItems`, among the items that are not tables: the kernel's schema has it for
strings only.  `seen` maps a value to the last place it stood at. -/
def repeatedItems (own pointer : Bytes) (seen : List (Doc × Nat)) (i : Nat) :
    List Doc → List Output
  | [] => []
  | d :: rest =>
      if d.isTable then repeatedItems own pointer seen (i + 1) rest
      else
        let found := match seen.find? fun entry => sameScalar entry.1 d with
          | some entry => [failed own pointer "uniqueItems"
              (bytes "must NOT have duplicate items (items ## " ++ bytes (toString entry.2) ++
                bytes " and " ++ bytes (toString i) ++ bytes " are identical)")]
          | none => []
        found ++ repeatedItems own pointer ((d, i) :: seen) (i + 1) rest

def uniqueItems : Keyword := fun own _ pointer d =>
  match d with
  | .array elements => repeatedItems own pointer [] 1 elements
  | _ => []

/-! ## Plugins -/

/-- A plugin that `uses:` can name. -/
structure Plugin where
  name : Bytes
  /-- What its `with:` schema says about a value, from the schema's own location and the
  value's own place on. -/
  refusals : Doc → List Output
  /-- The schema asks for some key. -/
  asks : Bool
  project : Bool
  outputs : Option (Table Bytes Bool)

/-- The plugin's `with:` schema, where it stands. -/
def Plugin.schema (plugin : Plugin) : List Keyword :=
  [fun own _ pointer d => (plugin.refusals d).map fun o =>
    ⟨pointer ++ o.instanceLocation, own ++ o.keywordLocation, o.error⟩]

/-! ## The built-in plugins -/

/-- `pattern`, with what PCRE makes of it. -/
def pattern (text : String) (accepts : Bytes → Bool) : Keyword := fun own _ pointer d =>
  match d with
  | .string s =>
      if accepts s then []
      else [failed own pointer "pattern" (bytes "must match pattern " ++ bytes text)]
  | _ => []

def oneOf (schemas : List (List Keyword)) : Keyword := fun own base pointer d =>
  let inner := schemas.zipIdx.map fun entry =>
    sub entry.1 (under (under base "oneOf") (toString entry.2)) pointer d
  if inner.countP List.isEmpty = 1 then []
  else failed own pointer "oneOf" (bytes "must match exactly one schema in oneOf") :: inner.flatten

/-- Where `$` may find the end: also before a line feed that comes last. -/
def beforeLastFeed (s : Bytes) : Bytes := if s.getLast? = some 10 then s.dropLast else s

/-- `^[a-z0-9][a-z0-9+.-]*$` -/
def isPackageName (s : Bytes) : Bool :=
  let small (b : UInt8) := (97 ≤ b && b ≤ 122) || isDigit b
  match beforeLastFeed s with
  | [] => false
  | b :: rest => small b && rest.all fun b => small b || [43, 46, 45].contains b

/-- `^[0-7]{2,4}$` -/
def isFileMode (s : Bytes) : Bool :=
  let mode := beforeLastFeed s
  (2 ≤ mode.length && mode.length ≤ 4) && mode.all fun b => 48 ≤ b && b ≤ 55

/-- A built-in plugin whose `with:` is an object of strings. -/
def builtinPlugin (name : String) (needs : List String) (inputs : List (String × List Keyword))
    (more : List Keyword) (outs : Option (List (String × Bool))) : Plugin where
  name := bytes name
  refusals := outputs ([type [.object], required needs,
    additionalProperties (inputs.map Prod.fst) never,
    properties (inputs.map fun input => (input.1, type [.string] :: input.2))] ++ more) [] [] []
  asks := !needs.isEmpty
  project := false
  outputs := outs.map fun named => Table.ofPairs (named.map fun out => (bytes out.1, out.2))

/-- `enum` of the states in which a thing can be -/
def stateEnum : Keyword := enum [bytes "present", bytes "absent"]

/-- `M.builtin` of `src/kernel/lua/plugins.lua` with the schemas under
`plugins/builtin`. -/
def builtinPlugins : List Plugin :=
  [builtinPlugin "file.ensure" ["path"]
    [("path", [minLength 1]), ("content", []), ("mode", [pattern "^[0-7]{2,4}$" isFileMode])]
    [] (some [("mode", false)]),
   builtinPlugin "file.read" ["path"] [("path", [minLength 1])] []
    (some [("exists", false), ("content", false), ("sha256", false), ("mode", false),
      ("owner", false)]),
   builtinPlugin "file.line" ["path", "line"]
    [("path", [minLength 1]), ("line", []), ("state", [stateEnum]), ("regexp", [minLength 1])]
    [] none,
   builtinPlugin "apt.package" ["name"]
    [("name", [pattern "^[a-z0-9][a-z0-9+.-]*$" isPackageName, minLength 2]),
      ("state", [stateEnum])]
    [] (some [("version", false)]),
   builtinPlugin "assert" ["actual"]
    [("actual", []), ("equals", []), ("contains", []), ("matches", []), ("message", [])]
    [oneOf [[required ["equals"]], [required ["contains"]], [required ["matches"]]]] none]

/-! ## The composed schema -/

def envSchema : List Keyword :=
  [type [.object], additionalProperties [] [type [.string, .number, .boolean]]]

/-- The branch of one plugin. -/
def pluginBranch (plugin : Plugin) : List Keyword :=
  [if_ [properties [("uses", [const plugin.name])], required ["uses"]]
    (properties [("with", plugin.schema)] :: if plugin.asks then [required ["with"]] else [])
    []]

def stepKeys : List String :=
  ["id", "name", "run", "uses", "with", "env", "on", "become", "timeout-seconds",
   "continue-on-error", "secret-outputs"]

def stepSchema (plugins : List Plugin) : List Keyword :=
  [type [.object],
   additionalProperties stepKeys never,
   properties
     [("id", [type [.string], minLength 1]),
      ("name", [type [.string]]),
      ("run", [type [.string]]),
      ("uses", [type [.string], enum (plugins.map Plugin.name)]),
      ("with", [type [.object]]),
      ("env", ref envSchema),
      ("on", [const (bytes "local")]),
      ("become", [type [.boolean, .string, .integer]]),
      ("timeout-seconds", [type [.number], exclusiveMinimum 0, maximum 604800]),
      ("continue-on-error", [type [.boolean]]),
      ("secret-outputs", [type [.array], items [type [.string], minLength 1]])],
   allOf
     ([if_ [required ["uses"]] [not_ [required ["run"]]] [required ["run"]]] ::
       plugins.map pluginBranch)]

def jobKeys : List String := ["name", "target", "needs", "env", "timeout-seconds", "steps"]

def jobSchema (plugins : List Plugin) : List Keyword :=
  [type [.object],
   required ["target", "steps"],
   additionalProperties jobKeys never,
   properties
     [("name", [type [.string]]),
      ("target", [type [.string], minLength 1]),
      ("needs", [type [.array], uniqueItems, items [type [.string], minLength 1]]),
      ("env", ref envSchema),
      ("timeout-seconds", [type [.number], exclusiveMinimum 0, maximum 604800]),
      ("steps", [type [.array], minItems 1, items (ref (stepSchema plugins))])]]

def workflowKeys : List String := ["name", "max-parallel", "env", "secrets", "jobs"]

/-- `compose` of `workflow.schema.json` and the plugins. -/
def workflowSchema (plugins : List Plugin) : List Keyword :=
  [type [.object],
   required ["jobs"],
   additionalProperties workflowKeys never,
   properties
     [("name", [type [.string]]),
      ("max-parallel", [type [.integer], minimum 1]),
      ("env", ref envSchema),
      ("secrets", [type [.object]]),
      ("jobs", [type [.object], minProperties 1, additionalProperties [] (ref (jobSchema plugins))])]]

/-! ## The messages of the schema -/

/-- `tonumber` of the digits that an index is written with. -/
def decimalValue (token : Bytes) : Option Nat :=
  if token ≠ [] ∧ token.all isDigit then some (token.foldl (fun n b => n * 10 + (b.toNat - 48)) 0)
  else none

/-- `resolve`, on the tokens of a pointer. -/
def resolve (d : Option Doc) : List Bytes → Option Doc
  | [] => d
  | token :: rest =>
      match d with
      | some (.array elements) => resolve ((decimalValue (unesc token)).bind (elements[·]?)) rest
      | some (.map fields) => resolve (fields.lookup (unesc token)) rest
      | some (.secret s) => resolve ((Doc.secret s).get (unesc token)) rest
      | _ => none

/-- `pointer:gmatch("/([^/]*)")` -/
def pointerTokens (pointer : Bytes) : List Bytes := (pointer.splitOn 47).tail

section Validate

-- `tostring`, and `string.format("%.10g", minutes * 60)`
variable (tostring : Option Doc → Bytes) (seconds : Number → Bytes)

/-- `describe` -/
def describe (plugins : List Plugin) (d : Doc) (o : Output) : Problem :=
  let ends := endsWith o.keywordLocation
  let value (message : Bytes) : Problem := ⟨o.instanceLocation, .value, message⟩
  let key (message : Bytes) : Problem := ⟨o.instanceLocation, .key, message⟩
  let found := resolve (some d) (pointerTokens o.instanceLocation)
  if ends "/additionalProperties" ∧ lastToken o.instanceLocation = bytes "timeout-minutes" then
    let hint := match found with
      | some (.number minutes) => bytes "timeout-seconds: " ++ seconds minutes
      | _ => bytes "timeout-seconds"
    key (bytes "unknown key \"timeout-minutes\": the unit is seconds now, write " ++ hint)
  else if ends "/properties/timeout-seconds/maximum" then
    value (bytes "timeout-seconds: at most 604800 (seven days)")
  else if ends "/additionalProperties" then
    key (bytes "unknown key " ++ quoted (lastToken o.instanceLocation))
  else if ends "/properties/uses/enum" then
    let names (project : Bool) := Template.commaList
      ((plugins.filter fun p => p.project == project).map Plugin.name)
    let known := bytes "built-in: " ++ names false ++
      if plugins.any Plugin.project then bytes "; project: " ++ names true else []
    value (bytes "unknown plugin " ++ quoted (tostring found) ++ bytes " (" ++ known ++ bytes ")")
  else if ends "/properties/on/const" then
    value (bytes "on: can only be \"local\" (a step runs on its job's target, or on the " ++
      bytes "operator host)")
  else if ends "/properties/become/type" then
    value (bytes "become: must be true (root), a user name or an integer uid")
  else if ends "/else/required" then value (bytes "a step needs either run: or uses:")
  else if ends "/then/not" then value (bytes "a step cannot have both run: and uses:")
  else if ends "/required" then value (o.error.getD (bytes "missing required key"))
  else value (o.error.getD (bytes "invalid value"))

/-! ## The typed workflow -/

-- how a number of the document is printed
variable (print : Number → Template.Number)

def scalarOf : Doc → Scalar
  | .string s => .string s
  | .number n => .number (print n)
  | .boolean b => .boolean b
  | _ => .boolean false

mutual

def dataOf : Doc → Data
  | .null => .null
  | .boolean b => .scalar (.boolean b)
  | .number n => .scalar (.number (print n))
  | .string s => .scalar (.string s)
  | .secret s => .secret s
  | .array elements => .array (dataItems elements)
  | .map fields => .map (dataFields fields)

def dataItems : List Doc → List Data
  | [] => []
  | d :: rest => dataOf d :: dataItems rest

def dataFields : List (Bytes × Doc) → List (Bytes × Data)
  | [] => []
  | (key, d) :: rest => (key, dataOf d) :: dataFields rest

end

def textOf : Option Doc → Option Bytes
  | some (.string s) => some s
  | _ => none

/-- The entries of an object that may be missing. -/
def entriesOf (d : Option Doc) : List (Bytes × Doc) := (d.map Doc.fields).getD []

def envOf (d : Option Doc) : Table Bytes Scalar :=
  Table.ofPairs ((entriesOf d).map fun entry => (entry.1, scalarOf print entry.2))

def becomeOf : Option Doc → Option Become
  | some (.boolean b) => some (.flag b)
  | some (.string s) => some (.user s)
  | some (.number (.finite q)) => some (.uid q.num)
  | _ => none

def elementsOf : Option Doc → List Doc
  | some (.array elements) => elements
  | _ => []

def stepOf (d : Doc) : Step where
  id := textOf (d.field "id")
  name := textOf (d.field "name")
  kind := match textOf (d.field "uses") with
    | some plugin => .uses plugin
    | none => .run ((textOf (d.field "run")).getD [])
  with_ := match d.field "with" with
    | some (.map fields) => some (dataFields print fields)
    | _ => none
  env := envOf print (d.field "env")
  onLocal := (d.field "on").isSome
  become := becomeOf (d.field "become")
  secretOutputs := (elementsOf (d.field "secret-outputs")).filterMap fun s => textOf (some s)

def jobOf (d : Doc) : Job where
  target := (textOf (d.field "target")).getD []
  env := envOf print (d.field "env")
  steps := (elementsOf (d.field "steps")).map (stepOf print)

/-- The text of an envelope; only the names of a `secrets:` map are read from it. -/
def envelopeText : Doc → Bytes
  | .secret s => s
  | _ => []

def workflowOf (d : Doc) : Workflow where
  env := envOf print (d.field "env")
  secrets := Table.ofPairs
    ((entriesOf (d.field "secrets")).map fun entry => (entry.1, envelopeText entry.2))
  jobs := Table.ofPairs ((entriesOf (d.field "jobs")).map fun entry => (entry.1, jobOf print entry.2))

def declaredOutputs (plugins : List Plugin) : Plugins :=
  Table.ofPairs (plugins.filterMap fun p => p.outputs.map fun outputs => (p.name, outputs))

variable (secretsCheck : Bytes → Option Bytes)

/-- `structure` -/
def structureErrors (plugins : List Plugin) (inventory : Template.Inventory) (d : Doc) :
    Except Raised (List Problem) := do
  let workflow := workflowOf print d
  let jobs := Template.jobsInOrder workflow
  let secrets ← secretMapErrors secretsCheck (d.field "secrets") (bytes "/secrets")
  return jobs.flatMap (Template.jobProblems inventory) ++ jobs.flatMap Template.becomeProblems ++
    secrets ++ Template.sharedSecretProblems workflow inventory ++
    jobs.flatMap (Template.targetSecretProblems workflow inventory) ++
    Template.check workflow inventory (declaredOutputs plugins)

/-- `M.validate` -/
def validateWorkflow (plugins : List Plugin) (inventory : Template.Inventory) (d : Doc) :
    Except Raised (List Problem) :=
  let found := outputs (workflowSchema plugins) [] [] [] d
  if found.isEmpty then structureErrors print secretsCheck plugins inventory d
  -- a line of `allOf` only says that some branch inside it failed
  else .ok ((found.filter fun o => !endsWith o.keywordLocation "/allOf").map
    (describe tostring seconds plugins d))

end Validate

end Qwe.Schema
