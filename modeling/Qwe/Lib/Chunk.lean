import Mathlib.Data.List.Basic
import Mathlib.Logic.Function.Basic

/-!
# The top level of a Lua file

Declarations, field assignments and expressions of Lua 5.1, over a heap of tables with
metatables.  A function that is called is the matter of the world: its body is not run
here, whatever it does to the state is.  Names that are not local are read from an
environment that raises for what the table behind it lacks and cannot be assigned to.

A run is the list of its steps: the reads, writes, operators and calls, each with the
state before it.  What a step does to the rest of the world are its effects, a table it
writes to or a function it calls.
-/

set_option autoImplicit false

namespace Qwe.Chunk

abbrev Text := List UInt8

/-- The bits of a double. -/
abbrev Double := UInt64

inductive Unary where
  | not
  | unm
  | len

inductive Arithmetic where
  | add
  | sub
  | mul
  | div
  | mod
  | pow

inductive Binary where
  | arith (op : Arithmetic)
  | concat
  | eq
  | ne
  | lt
  | le
  | gt
  | ge
  | and
  | or

mutual

inductive Expr where
  | nil
  | boolean (b : Bool)
  | number (n : Double)
  | string (s : Text)
  | dots
  | function
  | id (name : Text)
  | index (base key : Expr)
  | unary (op : Unary) (operand : Expr)
  | binary (op : Binary) (left right : Expr)
  | paren (inner : Expr)
  | table (items : List Item)
  | call (callee : Expr) (args : List Expr)
  | invoke (object : Expr) (method : Text) (args : List Expr)

inductive Item where
  | pair (key value : Expr)
  | item (value : Expr)

end

/-- The statements that are left to the world. -/
inductive Tag where
  /-- An assignment to several places at once, or to a name. -/
  | set
  | call
  | invoke
  | if_
  | while_
  | repeat_
  | fornum
  | forin
  | do_
  | opSet
  | goto
  | label
  | break_
deriving DecidableEq

inductive Stmt where
  | local_ (names : List Text) (values : List Expr)
  | localrec (name : Text)
  | set (targets values : List Expr)
  | return_ (values : List Expr)
  | other (tag : Tag)

/-! ## Values and the heap -/

inductive Value where
  | nil
  | boolean (b : Bool)
  | number (n : Double)
  | string (s : Text)
  | table (a : Nat)
  | function (f : Nat)
  /-- Userdata and the like. -/
  | other (k : Nat)
deriving DecidableEq

namespace Value

def truthy : Value → Bool
  | .nil => false
  | .boolean b => b
  | _ => true

def isFunction : Value → Bool
  | .function _ => true
  | _ => false

/-- `Double` is not a number. -/
def isNaN : Value → Bool
  | .number n =>
      decide ((n &&& 0x7FF0000000000000) = 0x7FF0000000000000 ∧ (n &&& 0xFFFFFFFFFFFFF) ≠ 0)
  | _ => false

/-- As a key: both zeros are one. -/
def key : Value → Value
  | .number n => .number (if n = 0x8000000000000000 then 0 else n)
  | v => v

/-- `rawequal` -/
def rawEqual (x y : Value) : Bool := !x.isNaN && decide (x.key = y.key)

end Value

structure Object where
  get : Value → Value
  metatable : Option Nat

namespace Object

def rawGet (o : Object) (k : Value) : Value := if k.isNaN then .nil else o.get k.key

def rawSet (o : Object) (k v : Value) : Object := { o with get := Function.update o.get k.key v }

def empty : Object := ⟨fun _ => .nil, none⟩

theorem rawGet_rawSet_self (o : Object) {k : Value} {field : Text} (same : k.key = .string field)
    (x : Value) : (o.rawSet k x).rawGet (.string field) = x := by
  rw [rawGet, if_neg (by simp [Value.isNaN]), rawSet, same]
  exact Function.update_self ..

theorem rawGet_rawSet_of_ne (o : Object) {k : Value} {field : Text} (other : k.key ≠ .string field)
    (x : Value) : (o.rawSet k x).rawGet (.string field) = o.rawGet (.string field) := by
  have text : (Value.string field).isNaN ≠ true := by simp [Value.isNaN]
  rw [rawGet, rawGet, if_neg text, if_neg text]
  exact Function.update_of_ne (Ne.symm other) ..

end Object

structure Heap where
  objects : Nat → Object
  /-- The metatables of values that are not tables. -/
  others : Value → Option Nat
  /-- Tables and functions from here on do not exist yet. -/
  next : Nat

namespace Heap

def metatable (h : Heap) : Value → Option Nat
  | .table a => (h.objects a).metatable
  | v => h.others v

/-- What the metatable of a value has for an event. -/
def handler (h : Heap) (v : Value) (event : Text) : Value :=
  match h.metatable v with
  | none => .nil
  | some m => (h.objects m).rawGet (.string event)

def put (h : Heap) (a : Nat) (k v : Value) : Heap :=
  { h with objects := Function.update h.objects a ((h.objects a).rawSet k v) }

theorem objects_put_self (h : Heap) (a : Nat) (k v : Value) :
    (h.put a k v).objects a = (h.objects a).rawSet k v :=
  Function.update_self ..

theorem objects_put_of_ne (h : Heap) {a b : Nat} (other : b ≠ a) (k v : Value) :
    (h.put a k v).objects b = h.objects b :=
  Function.update_of_ne other ..

theorem metatable_put (h : Heap) (a b : Nat) (k v : Value) :
    ((h.put a k v).objects b).metatable = (h.objects b).metatable := by
  by_cases same : b = a
  · subst same
    rw [objects_put_self]
    rfl
  · rw [objects_put_of_ne h same]

end Heap

structure State where
  /-- The local of a name that is in scope. -/
  locals : Text → Option Value
  heap : Heap
  /-- The tables that the constructors of the file have made, and those of them that have
  not come to their end. -/
  made : List Nat
  building : List Nat

/-- A step that may concern the rest of the world. -/
inductive Operation where
  /-- `v[k]` -/
  | index (v k : Value)
  | unary (op : Unary) (x : Value)
  | binary (op : Binary) (x y : Value)
  /-- `v[k] = x` -/
  | assign (v k x : Value)
  | call (f : Value) (args : List Value)

/-- What the file has not made itself. -/
structure World where
  /-- The environment, and the table of globals behind it. -/
  environment : Nat
  globals : Nat
  arith : Arithmetic → Double → Double → Double
  negate : Double → Double
  less : Double → Double → Bool
  lessEq : Double → Double → Bool
  /-- `tostring` and `tonumber` -/
  text : Double → Text
  number : Text → Option Double
  ofNat : Nat → Double
  /-- `#` of a table -/
  border : Object → Nat
  /-- A call, which returns values or raises an error. -/
  call : Value → List Value → State → State × Option (List Value)
  statement : Tag → State → State × Option (Option (List Value))

/-- A value, an error, or the call of a handler and what is made of its result. -/
inductive Answer where
  | value (v : Value)
  | raised
  | call (f : Value) (args : List Value) (finish : Value → Value)

def event (name : String) : Text := name.toUTF8.data.toList

section World
variable (w : World)

/-- `v[k]`, through so many `__index` tables. -/
def index (h : Heap) : Nat → Value → Value → Answer
  | 0, _, _ => .raised
  | depth + 1, v, k =>
      let behind : Answer :=
        match h.handler v (event "__index") with
        | .nil => match v with
            | .table _ => .value .nil
            | _ => .raised
        | .function f => .call (.function f) [v, k] id
        | next => index h depth next k
      match v with
      | .table a =>
          if (h.objects a).rawGet k ≠ .nil then .value ((h.objects a).rawGet k)
          else if a = w.environment then
            match (h.objects w.globals).rawGet k with
            | .nil => .raised
            | found => .value found
          else behind
      | _ => behind

/-- What `v[k] = x` comes to: a table to write to, an error or a call. -/
inductive Store where
  | write (a : Nat)
  | raised
  | call (f : Value)

def store (h : Heap) : Nat → Value → Value → Store
  | 0, _, _ => .raised
  | depth + 1, v, k =>
      let behind : Store :=
        match h.handler v (event "__newindex") with
        | .nil => match v with
            | .table a => if k = .nil ∨ k.isNaN then .raised else .write a
            | _ => .raised
        | .function f => .call (.function f)
        | next => store h depth next k
      match v with
      | .table a =>
          if (h.objects a).rawGet k ≠ .nil then .write a
          else if a = w.environment then .raised
          else behind
      | _ => behind

/-- How many metatables one access goes through. -/
def maxDepth : Nat := 100

/-- A table that has no metatable is written to itself. -/
theorem store_plain {h : Heap} {a : Nat} (plain : (h.objects a).metatable = none) (k : Value) :
    store w h maxDepth (.table a) k = .write a ∨ store w h maxDepth (.table a) k = .raised := by
  have handler : h.handler (.table a) (event "__newindex") = .nil := by
    rw [Heap.handler, Heap.metatable, plain]
  rw [maxDepth, store, handler]
  dsimp only
  split_ifs with present own odd
  · exact .inl rfl
  · exact .inr rfl
  · exact .inr rfl
  · exact .inl rfl

def Value.toNumber (v : Value) : Option Double :=
  match v with
  | .number n => some n
  | .string s => w.number s
  | _ => none

def Value.toText (v : Value) : Option Text :=
  match v with
  | .number n => some (w.text n)
  | .string s => some s
  | _ => none

/-- The handler of the first operand that has one. -/
def handled (h : Heap) (name : String) (x y : Value) : Answer :=
  match h.handler x (event name), h.handler y (event name) with
  | .nil, .nil => .raised
  | .nil, f => .call f [x, y] id
  | f, _ => .call f [x, y] id

def Arithmetic.event : Arithmetic → String
  | .add => "__add"
  | .sub => "__sub"
  | .mul => "__mul"
  | .div => "__div"
  | .mod => "__mod"
  | .pow => "__pow"

def arithmetic (h : Heap) (op : Arithmetic) (x y : Value) : Answer :=
  match x.toNumber w, y.toNumber w with
  | some a, some b => .value (.number (w.arith op a b))
  | _, _ => handled h op.event x y

def concat (h : Heap) (x y : Value) : Answer :=
  match x.toText w, y.toText w with
  | some a, some b => .value (.string (a ++ b))
  | _, _ => handled h "__concat" x y

/-- Two tables, or two values of another kind, that have one handler in common. -/
def sameHandler (h : Heap) (name : String) (x y : Value) : Option Value :=
  let f := h.handler x (event name)
  if f ≠ .nil ∧ f = h.handler y (event name) then some f else none

def equal (h : Heap) (x y : Value) : Answer :=
  if x.rawEqual y then .value (.boolean true)
  else
    match x, y with
    | .table _, .table _ | .other _, .other _ =>
        match sameHandler h "__eq" x y with
        | some f => .call f [x, y] fun v => .boolean v.truthy
        | none => .value (.boolean false)
    | _, _ => .value (.boolean false)

def textLess : Text → Text → Bool
  | _, [] => false
  | [], _ :: _ => true
  | a :: s, b :: t => decide (a < b) || (a == b && textLess s t)

def lessThan (h : Heap) (x y : Value) : Answer :=
  match x, y with
  | .number a, .number b => .value (.boolean (w.less a b))
  | .string a, .string b => .value (.boolean (textLess a b))
  | _, _ =>
      match sameHandler h "__lt" x y with
      | some f => .call f [x, y] fun v => .boolean v.truthy
      | none => .raised

def lessOrEqual (h : Heap) (x y : Value) : Answer :=
  match x, y with
  | .number a, .number b => .value (.boolean (w.lessEq a b))
  | .string a, .string b => .value (.boolean (!textLess b a))
  | _, _ =>
      match sameHandler h "__le" x y, sameHandler h "__lt" y x with
      | some f, _ => .call f [x, y] fun v => .boolean v.truthy
      | none, some f => .call f [y, x] fun v => .boolean !v.truthy
      | none, none => .raised

def Answer.map (g : Value → Value) : Answer → Answer
  | .value v => .value (g v)
  | .raised => .raised
  | .call f args finish => .call f args (g ∘ finish)

/-- An operator that evaluates both its operands. -/
def binary (h : Heap) (op : Binary) (x y : Value) : Answer :=
  match op with
  | .arith op => arithmetic w h op x y
  | .concat => concat w h x y
  | .eq => equal h x y
  | .ne => (equal h x y).map fun v => .boolean !v.truthy
  | .lt => lessThan w h x y
  | .le => lessOrEqual w h x y
  | .gt => lessThan w h y x
  | .ge => lessOrEqual w h y x
  | .and => .value (if x.truthy then y else x)
  | .or => .value (if x.truthy then x else y)

def unary (h : Heap) (op : Unary) (x : Value) : Answer :=
  match op with
  | .not => .value (.boolean !x.truthy)
  | .unm =>
      match x.toNumber w with
      | some n => .value (.number (w.negate n))
      | none => handled h "__unm" x x
  | .len =>
      match x with
      | .string s => .value (.number (w.ofNat s.length))
      | .table a => .value (.number (w.ofNat (w.border (h.objects a))))
      | _ => handled h "__len" x .nil

def callable (h : Heap) (f : Value) : Bool :=
  f.isFunction || decide (h.handler f (event "__call") ≠ .nil)

def first (values : List Value) : Value := values.headD .nil

/-- A call, where the value can be called. -/
def apply (f : Value) (args : List Value) (s : State) : State × Option (List Value) :=
  if callable s.heap f then w.call f args s else (s, none)

def Answer.act (s : State) : Answer → State × Option (List Value)
  | .value v => (s, some [v])
  | .raised => (s, none)
  | .call f args finish =>
      let r := apply w f args s
      (r.1, r.2.map fun values => [finish (first values)])

namespace Operation

def act (s : State) : Operation → State × Option (List Value)
  | .index v k => (Chunk.index w s.heap maxDepth v k).act w s
  | .unary op x => (Chunk.unary w s.heap op x).act w s
  | .binary op x y => (Chunk.binary w s.heap op x y).act w s
  | .assign v k x =>
      match store w s.heap maxDepth v k with
      | .write a => ({ s with heap := s.heap.put a k x }, some [])
      | .raised => (s, none)
      | .call f => ((apply w f [v, k, x] s).1, (apply w f [v, k, x] s).2.map fun _ => [])
  | .call f args => apply w f args s

end Operation

/-! ## Effects -/

inductive Effect where
  | wrote (a : Nat)
  | called (f : Value) (args : List Value)

def calls (h : Heap) (f : Value) (args : List Value) : List Effect :=
  if callable h f then [.called f args] else []

def Answer.effects (h : Heap) : Answer → List Effect
  | .call f args _ => calls h f args
  | _ => []

def Operation.effects (s : State) : Operation → List Effect
  | .index v k => (Chunk.index w s.heap maxDepth v k).effects s.heap
  | .unary op x => (Chunk.unary w s.heap op x).effects s.heap
  | .binary op x y => (Chunk.binary w s.heap op x y).effects s.heap
  | .assign v k x =>
      match store w s.heap maxDepth v k with
      | .write a => [.wrote a]
      | .raised => []
      | .call f => calls s.heap f [v, k, x]
  | .call f args => calls s.heap f args

/-- A step that is no assignment leaves the state, or it calls something. -/
theorem Answer.act_cases (answer : Answer) (s : State) : (answer.act w s).1 = s ∨
    ∃ f args, .called f args ∈ answer.effects s.heap ∧
      (answer.act w s).1 = (w.call f args s).1 := by
  cases answer with
  | call f args finish =>
      rw [act, effects, apply, calls]
      split
      · exact .inr ⟨f, args, List.mem_singleton.mpr rfl, rfl⟩
      · exact .inl rfl
  | _ => exact .inl rfl

theorem Operation.act_cases {op : Operation} (quiet : ∀ v k x, op ≠ .assign v k x) (s : State) :
    (op.act w s).1 = s ∨
      ∃ f args, .called f args ∈ op.effects w s ∧ (op.act w s).1 = (w.call f args s).1 := by
  cases op with
  | index v k => exact (Chunk.index w s.heap maxDepth v k).act_cases w s
  | unary op x => exact (Chunk.unary w s.heap op x).act_cases w s
  | binary op x y => exact (Chunk.binary w s.heap op x y).act_cases w s
  | assign v k x => exact absurd rfl (quiet v k x)
  | call f args =>
      rw [act, effects, apply, calls]
      split
      · exact .inr ⟨f, args, List.mem_singleton.mpr rfl, rfl⟩
      · exact .inl rfl

end World

/-! ## Evaluation -/

/-- The steps, the state behind them, and the value unless an error was raised. -/
structure Result (α : Type) where
  steps : List (State × Operation)
  state : State
  value : Option α

def Eval (α : Type) := State → Result α

namespace Eval
variable {α β : Type}

def pure (x : α) : Eval α := fun s => ⟨[], s, some x⟩

def bind (m : Eval α) (f : α → Eval β) : Eval β := fun s =>
  match (m s).value with
  | none => ⟨(m s).steps, (m s).state, none⟩
  | some x =>
      let r := f x (m s).state
      ⟨(m s).steps ++ r.steps, r.state, r.value⟩

instance : Monad Eval where
  pure := Eval.pure
  bind := Eval.bind

theorem pure_bind (x : α) (f : α → Eval β) : (Pure.pure x >>= f) = f x := rfl

theorem bind_assoc {γ : Type} (m : Eval α) (f : α → Eval β) (g : β → Eval γ) :
    ((m >>= f) >>= g) = m >>= fun x => f x >>= g := by
  funext s
  change bind (bind m f) g s = bind m (fun x => bind (f x) g) s
  unfold bind
  cases (m s).value with
  | none => rfl
  | some x => cases ran : (f x (m s).state).value <;> simp [ran]

def modify (f : State → State) : Eval Unit := fun s => ⟨[], f s, some ()⟩

def get : Eval State := fun s => ⟨[], s, some s⟩

end Eval

section World
variable (w : World)

def perform (op : Operation) : Eval (List Value) := fun s =>
  ⟨[(s, op)], (op.act w s).1, (op.act w s).2⟩

/-- A table without entries, which is the file's own. -/
def newTable : Eval Nat := fun s =>
  let a := s.heap.next
  ⟨[], { s with
    heap := { s.heap with
      objects := Function.update s.heap.objects a Object.empty, next := a + 1 }
    made := a :: s.made
    building := a :: s.building }, some a⟩

/-- The end of the constructor that was begun last. -/
def finish (s : State) : State := { s with building := s.building.tail }

def newFunction : Eval (List Value) := fun s =>
  ⟨[], { s with heap := { s.heap with next := s.heap.next + 1 } }, some [.function s.heap.next]⟩

/-- A local, else a name of the environment. -/
def readName (name : Text) : Eval (List Value) := do
  let s ← Eval.get
  match s.locals name with
  | some v => pure [v]
  | none => perform w (.index (.table w.environment) (.string name))

theorem readName_local {s : State} {name : Text} {v : Value} (found : s.locals name = some v) :
    readName w name s = ⟨[], s, some [v]⟩ := by
  simp only [readName, Bind.bind, Eval.bind, Eval.get, found]
  rfl

theorem readName_global {s : State} {name : Text} (missing : s.locals name = none) :
    readName w name s = perform w (.index (.table w.environment) (.string name)) s := by
  simp only [readName, Bind.bind, Eval.bind, Eval.get, missing, List.nil_append]

/-- The entries of an array, from an index on. -/
def storeFrom (a : Nat) : Nat → List Value → Eval Unit
  | _, [] => pure ()
  | i, v :: rest => do
      let _ ← perform w (.assign (.table a) (.number (w.ofNat i)) v)
      storeFrom a (i + 1) rest

mutual

/-- The values of an expression: a call may have any number of them, all others have one. -/
def eval : Expr → Eval (List Value)
  | .nil => pure [.nil]
  | .boolean b => pure [.boolean b]
  | .number n => pure [.number n]
  | .string s => pure [.string s]
  -- a file that is loaded has no arguments
  | .dots => pure []
  | .function => newFunction
  | .id name => readName w name
  | .index base key => do
      let b ← eval base
      let k ← eval key
      perform w (.index (first b) (first k))
  | .unary op operand => do
      let x ← eval operand
      perform w (.unary op (first x))
  | .binary .and left right => do
      let x ← eval left
      if (first x).truthy then do
        let y ← eval right
        pure [first y]
      else pure [first x]
  | .binary .or left right => do
      let x ← eval left
      if (first x).truthy then pure [first x]
      else do
        let y ← eval right
        pure [first y]
  | .binary op left right => do
      let x ← eval left
      let y ← eval right
      perform w (.binary op (first x) (first y))
  | .paren inner => do
      let x ← eval inner
      pure [first x]
  | .table items => do
      let a ← newTable
      evalItems a 1 items
      Eval.modify finish
      pure [.table a]
  | .call callee args => do
      let f ← eval callee
      let xs ← evalAll args
      perform w (.call (first f) xs)
  | .invoke object method args => do
      let o ← eval object
      let f ← perform w (.index (first o) (.string method))
      let xs ← evalAll args
      perform w (.call (first f) (first o :: xs))

/-- A list of expressions: all values of the last, one of each other. -/
def evalAll : List Expr → Eval (List Value)
  | [] => pure []
  | [e] => eval e
  | e :: rest => do
      let x ← eval e
      let xs ← evalAll rest
      pure (first x :: xs)

/-- The items of a constructor, with the index of the next one that has no key. -/
def evalItems (a : Nat) : Nat → List Item → Eval Unit
  | _, [] => pure ()
  | i, .pair key value :: rest => do
      let k ← eval key
      let x ← eval value
      let _ ← perform w (.assign (.table a) (first k) (first x))
      evalItems a i rest
  | i, [.item value] => do
      let xs ← eval value
      storeFrom w a i xs
  | i, .item value :: rest => do
      let x ← eval value
      let _ ← perform w (.assign (.table a) (.number (w.ofNat i)) (first x))
      evalItems a (i + 1) rest

end

theorem eval_strict {op : Binary} (both : op ≠ .and ∧ op ≠ .or) (left right : Expr) :
    eval w (.binary op left right) = (do
      let x ← eval w left
      let y ← eval w right
      perform w (.binary op (first x) (first y))) := by
  cases op with
  | and => exact absurd rfl both.1
  | or => exact absurd rfl both.2
  | _ => rw [eval] <;> simp

/-- The locals of a declaration; those without a value are nil. -/
def declare (s : State) : List Text → List Value → State
  | [], _ => s
  | name :: names, values =>
      declare { s with locals := Function.update s.locals name (some (first values)) } names
        values.tail

def leave (tag : Tag) : Eval (Option (List Value)) := fun s =>
  ⟨[], (w.statement tag s).1, (w.statement tag s).2⟩

/-- A statement; `return` ends the file with its values. -/
def exec : Stmt → Eval (Option (List Value))
  | .local_ names values => do
      let xs ← evalAll w values
      Eval.modify fun s => declare s names xs
      pure none
  | .localrec name => do
      let f ← newFunction
      Eval.modify fun s => declare s [name] f
      pure none
  | .set [.index base key] values => do
      let b ← eval w base
      let k ← eval w key
      let xs ← evalAll w values
      let _ ← perform w (.assign (first b) (first k) (first xs))
      pure none
  | .set _ _ => leave w .set
  | .return_ values => do
      let xs ← evalAll w values
      pure (some xs)
  | .other tag => leave w tag

/-- The values of an assignment are evaluated one after the other. -/
theorem exec_set (base key value : Expr) (more : List Expr) :
    exec w (.set [.index base key] (value :: more)) = (do
      let b ← eval w base
      let k ← eval w key
      let x ← eval w value
      let _ ← evalAll w more
      let _ ← perform w (.assign (first b) (first k) (first x))
      pure none) := by
  rw [exec]
  cases more with
  | nil =>
      simp only [evalAll]
      rfl
  | cons next rest =>
      rw [evalAll]
      · simp only [Eval.bind_assoc, Eval.pure_bind]
        rfl
      · exact List.cons_ne_nil _ _

/-- The file, which returns nothing at its end. -/
def run : List Stmt → Eval (List Value)
  | [] => pure []
  | stmt :: rest => do
      match ← exec w stmt with
      | some values => pure values
      | none => run rest

end World

end Qwe.Chunk
