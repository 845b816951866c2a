import Qwe.Kernel.Message
import Qwe.Lua.Encoder
import Qwe.Lua.RoundTrip

/-!
# What a plugin can report

`run_step` of `plugins.lua`, `run` of `checkapply.lua` and `child_argv` of
`workflow.c`: from what a plugin's functions return or raise to the message the
parent reads.
-/

set_option autoImplicit false

namespace Qwe.Kernel

open Qwe.Cbor Qwe.Lifecycle Qwe.Lua
open Qwe.Redact (Bytes)
open Qwe.Template (bytes)

/-! ## The plugin -/

/-- What a call of one of the plugin's functions comes to. -/
inductive Reply where
  | raised
  | returned (values : List Value)

/-- A returned value, nil where there is none. -/
def nth (values : List Value) (n : Nat) : Value := values.getD n .nil

/-- What the plugin's functions do when `run_step` calls them, in one step.  A
module that does not load raises where it is opened; it is one whose `argv` does. -/
structure Plugin where
  /-- `mod.argv`, if it is a function -/
  argv : Option Reply
  check : Reply
  apply : Reply
  /-- the second call of `check` -/
  recheck : Reply

def truthy : Value → Bool
  | .nil => false
  | .boolean b => b
  | _ => true

def luaTable (fields : List (String × Value)) : Value :=
  .table .none [] (fields.map fun entry => (bytes entry.1, entry.2)) false

/-- `outputs or {}` -/
def outputsOf (values : List Value) : Value :=
  if truthy (nth values 1) then nth values 1 else luaTable []

def okResult (changed : Bool) (outputs : Value) : Value :=
  luaTable [("status", .string (bytes "ok")), ("changed", .boolean changed), ("outputs", outputs)]

def failedResult (reason : String) : Value :=
  luaTable [("status", .string (bytes "failed")), ("reason", .string (bytes reason)),
    ("changed", .boolean true), ("outputs", luaTable [])]

/-- `run` of `checkapply.lua`; nothing comes back if a function raised. -/
def checkApply (p : Plugin) : Option Value :=
  match p.check with
  | .raised => none
  | .returned values =>
      if !truthy (nth values 0) then some (okResult false (outputsOf values))
      else
        match p.apply with
        | .raised => none
        | .returned _ =>
            match p.recheck with
            | .raised => none
            | .returned values =>
                if truthy (nth values 0) then some (failedResult "not-converged")
                else some (okResult true (outputsOf values))

/-- `run_step`, once the become probe has passed: the argv and the result. -/
def runStep (p : Plugin) : Value × Value :=
  match p.argv with
  | some .raised => (.nil, failedResult "plugin-error")
  | some (.returned values) => (nth values 0, nth values 1)
  | none => (.nil, (checkApply p).getD (failedResult "plugin-error"))

/-! ## The child -/

def isTable : Value → Bool
  | .table .. => true
  | _ => false

/-- `lua_isstring` -/
def isString : Value → Bool
  | .string _ => true
  | .number _ => true
  | _ => false

/-- An argv that can be handed to `execvp`. -/
def isArgv : Value → Bool
  | .table _ sequence _ _ => !sequence.isEmpty && sequence.all isString
  | _ => false

section Child
variable (put : Nat → Number → Bytes) (numeral : Number → Bytes)

/-- `send_result`: what is written, if it can be encoded. -/
def sendResult (v : Value) : Option (List (Token Number)) := (luaToCbor numeral v).toOption

def sendStatus (status : String) (reason : Option String) : Option (List (Token Number)) :=
  sendResult numeral (luaTable (("status", .string (bytes status)) ::
    (reason.map fun why => ("reason", Value.string (bytes why))).toList))

/-- `child_argv`: the message on the result pipe, if one is sent.  Memory and the
pipe do not fail. -/
def childMessage (p : Plugin) : Option (List (Token Number)) :=
  let (argv, result) := runStep p
  if isTable result then
    (sendResult numeral result).or (sendStatus numeral "failed" (some "engine-error"))
  else if isArgv argv then
    (sendStatus numeral "exec" none).or (sendStatus numeral "failed" (some "engine-error"))
  else none

/-- What the parent reads of the heads. -/
def readMessage (heads : List (Token Number)) : StepMsg :=
  match cborToLua heads with
  | .error _ => .missing
  | .ok v => messageOf v

/-- What the parent reads of the child: nothing if the child dies first or says too
much, else its message. -/
def Hears (p : Plugin) (msg : StepMsg) : Prop :=
  msg = .missing ∨ ∃ heads, childMessage numeral p = some heads ∧
    (Tinycbor.tokensBytes put heads).length ≤ resultMax ∧ msg = readMessage heads

end Child

end Qwe.Kernel
