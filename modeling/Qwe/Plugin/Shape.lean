import Qwe.Lib.Chunk
import Qwe.Template.Expr

/-!
# The shape of a plugin file

`src/kernel/lua/pluginshape.lua`: what the top level of a plugin file may hold, read off
its syntax tree.  The places of the problems in the source text are left out.
-/

set_option autoImplicit false

namespace Qwe.Plugin

open Qwe.Chunk
open Qwe.Template (bytes)

/-! ## Inert values -/

section Inert
-- `package.preload[name] ~= nil`
variable (provided : Text → Bool)

mutual

def inert : Expr → Bool
  | .nil => true
  | .boolean _ => true
  | .number _ => true
  | .string _ => true
  | .id _ => true
  | .function => true
  | .paren inner => inert inner
  | .index base key => inert base && inert key
  | .unary _ operand => inert operand
  | .binary _ left right => inert left && inert right
  | .table items => inertItems items
  | .call (.id name) [.string s] => decide (name = bytes "require") && provided s
  | .call _ _ => false
  | .invoke _ _ _ => false
  | .dots => false

def inertItems : List Item → Bool
  | [] => true
  | .pair key value :: rest => inert key && inert value && inertItems rest
  | .item value :: rest => inert value && inertItems rest

end

/-! ## The statement walk -/

/-- What is known of the locals: those bound to a function, and the fields of those
bound to a table. -/
structure Notes where
  functions : Text → Bool
  tables : Text → Option (Text → Option Expr)

def Notes.empty : Notes := ⟨fun _ => false, fun _ => none⟩

/-- The fields of a constructor that have a literal name; the last one of a name counts. -/
def fieldsFrom (fields : Text → Option Expr) : List Item → Text → Option Expr
  | [] => fields
  | .pair (.string name) value :: rest =>
      fieldsFrom (Function.update fields name (some value)) rest
  | _ :: rest => fieldsFrom fields rest

def fieldsOf (items : List Item) : Text → Option Expr := fieldsFrom (fun _ => none) items

def Notes.bind (notes : Notes) (name : Text) : Expr → Notes
  | .function => { notes with functions := Function.update notes.functions name true }
  | .table items => { notes with tables := Function.update notes.tables name (some (fieldsOf items)) }
  | _ => notes

/-- `WHY` of a value -/
def whyValue : Expr → String
  | .call _ _ => "a call would run when the file loads"
  | .invoke _ _ _ => "a method call would run when the file loads"
  | _ => "this value is computed when the file loads"

/-- `WHY` of a statement -/
def whyStmt : Tag → String
  | .call => "a call would run when the file loads"
  | .invoke => "a method call would run when the file loads"
  | .if_ => "an if would run when the file loads"
  | .while_ => "a loop would run when the file loads"
  | .repeat_ => "a loop would run when the file loads"
  | .fornum => "a loop would run when the file loads"
  | .forin => "a loop would run when the file loads"
  | .do_ => "a do-block would run when the file loads"
  | _ => "this statement would run when the file loads"

def refusal (why : String) : String :=
  "top-level code is not allowed in a plugin: " ++ why ++
    "; put it in check or apply, or in a function they call"

/-- The values of a declaration, each with the name it is for. -/
def walkValues (notes : Notes) : List Text → List Expr → Notes × List String
  | _, [] => (notes, [])
  | names, value :: rest =>
      if inert provided value then
        match names with
        | [] => walkValues notes [] rest
        | name :: names => walkValues (notes.bind name value) names rest
      else
        let r := walkValues notes names.tail rest
        (r.1, refusal (whyValue value) :: r.2)

/-- `M.name = value`, for what is known of `M`. -/
def Notes.assign (notes : Notes) (table field : Text) (value : Expr) : Notes :=
  match notes.tables table with
  | none => notes
  | some fields =>
      { notes with
        tables := Function.update notes.tables table (some (Function.update fields field (some value))) }

/-- One statement: the notes behind it, the problems, and what is returned. -/
def walkStmt (last : Bool) (notes : Notes) : Stmt → Notes × List String × Option Expr
  | .local_ names values =>
      let r := walkValues provided notes names values
      (r.1, r.2, none)
  | .localrec name => (notes.bind name .function, [], none)
  -- only the first of the values is looked at
  | .set [.index (.id table) (.string field)] (value :: _) =>
      if inert provided value then (notes.assign table field value, [], none)
      else (notes, [refusal "this value is computed when the file loads"], none)
  | .set _ _ =>
      (notes, ["top-level code is not allowed in a plugin: only M.name = value assignments; " ++
        "a plugin has no state of its own"], none)
  | .return_ values =>
      match last, values with
      | true, [value] => (notes, [], some value)
      | _, _ => (notes, ["the plugin must end with a single return of its module table"], none)
  | .other tag => (notes, [refusal (whyStmt tag)], none)

def walk (notes : Notes) : List Stmt → Notes × List String × Option Expr
  | [] => (notes, [], none)
  | stmt :: rest =>
      let here := walkStmt provided rest.isEmpty notes stmt
      let later := walk here.1 rest
      (later.1, here.2.1 ++ later.2.1, here.2.2.or later.2.2)

/-! ## Exports -/

/-- `is_function` -/
def Notes.isFunction (notes : Notes) : Expr → Bool
  | .function => true
  | .id name => notes.functions name
  | _ => false

def exportsOf (notes : Notes) : Option Expr → Option (Text → Option Expr)
  | some (.table items) => some (fieldsOf items)
  | some (.id name) => notes.tables name
  | _ => none

/-- `exported` -/
def exported (notes : Notes) (returned : Option Expr) (name : String) : Bool :=
  match (exportsOf notes returned).bind (· (bytes name)) with
  | some value => notes.isFunction value
  | none => false

/-- `M.check`, on the syntax tree of a file that parses. -/
def check (file : List Stmt) : List String :=
  let (notes, problems, returned) := walk provided Notes.empty file
  problems ++
    if exported notes returned "argv" ||
        (exported notes returned "check" && exported notes returned "apply") then []
    else ["the plugin must export check and apply functions, or argv (a run-like plugin)"]

end Inert

end Qwe.Plugin
