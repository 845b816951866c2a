import Qwe.Plugin.Load

/-!
# The exports of a plugin file

The check decides from notes about the locals whether the module exports functions.  What
it notes of an entry point may not be what the module has: the name that is noted may stand
for something else, and the entry is overwritten unseen under a computed key, through
another name of the table, or by a function that is called.  Where none of this puts
anything but a function there, the file returns what the notes say.
-/

set_option autoImplicit false

namespace Qwe.Plugin

open Qwe.Chunk
open Qwe.Template (bytes)

/-! ## What the check relies on -/

/-- The notes at the end of a file, what the file returns, and the entry points that are
asked for. -/
structure Module where
  notes : Notes
  returned : Option Expr
  points : List String

def moduleOf (provided : Text → Bool) (file : List Stmt) (points : List String) : Module :=
  ⟨(walk provided Notes.empty file).1, (walk provided Notes.empty file).2.2, points⟩

/-- The local that is returned. -/
def Module.named (m : Module) (name : Text) : Prop := m.returned = some (.id name)

/-- The node that the check takes for an entry point. -/
def Module.entry (m : Module) (field : Text) (node : Expr) : Prop :=
  (∃ point ∈ m.points, bytes point = field) ∧
    ∃ fields, exportsOf m.notes m.returned = some fields ∧ fields field = some node

/-! ## When the notes are right -/

section Conditions
variable (w : World) (m : Module)

/-- What is put under a key is a function, where it is noted as an entry point. -/
def Fits (fields : Text → Option Expr) (k x : Value) : Prop :=
  ∀ field node, k.key = .string field → fields field = some node → m.entry field node →
    x.isFunction = true

/-- Each item of the constructor of a table fits what is noted when it is put there. -/
def ItemsFit (a : Nat) : (Text → Option Expr) → Nat → List Item → State → Prop
  | _, _, [], _ => True
  | fields, i, .pair key value :: rest, s =>
      (eval w key s).Then fun k s1 => (eval w value s1).Then fun x s2 =>
        Fits m (fieldsFrom fields [.pair key value]) (first k) (first x) ∧
          (perform w (.assign (.table a) (first k) (first x)) s2).Then fun _ s3 =>
            ItemsFit a (fieldsFrom fields [.pair key value]) i rest s3
  | fields, i, .item value :: rest, s =>
      (eval w value s).Then fun x s1 =>
        (perform w (.assign (.table a) (.number (w.ofNat i)) (first x)) s1).Then fun _ s2 =>
          ItemsFit a fields (i + 1) rest s2

def ConstructorFits (items : List Item) (s : State) : Prop :=
  ItemsFit w m s.heap.next (fun _ => none) 1 items (newTable s).state

/-- A table gets no metatable, and its entry points that are functions remain so. -/
structure Keeps (s s' : State) (a : Nat) : Prop where
  plain : (s.heap.objects a).metatable = none → (s'.heap.objects a).metatable = none
  points : ∀ point ∈ m.points,
    ((s.heap.objects a).rawGet (.string (bytes point))).isFunction = true →
      ((s'.heap.objects a).rawGet (.string (bytes point))).isFunction = true

/-- The constructor for the returned local fits, and the values behind it leave its table. -/
def ValuesFit : List Text → List Expr → State → Prop
  | name :: names, value :: values, s =>
      (∀ items, value = .table items → m.named name → ConstructorFits w m items s ∧
        (eval w value s).Then fun _ s1 => (evalAll w values s1).Then fun _ s2 =>
          Keeps m s1 s2 s.heap.next) ∧
      (eval w value s).Then fun _ s' => ValuesFit names values s'
  | _, _, _ => True

def isTable : Expr → Bool
  | .table _ => true
  | _ => false

/-- The returned local, once it is noted, is declared again only with a constructor or with
its own value. -/
def Redeclares : Notes → (Text → Option Value) → List Text → List Expr → List Value → Prop
  | _, _, [], _, _ => True
  | notes, locals, name :: names, values, xs =>
      (m.named name → notes.tables name ≠ none → isTable (values.headD .nil) = false →
        locals name = some (first xs)) ∧
      Redeclares (notes.bind name (values.headD .nil))
        (Function.update locals name (some (first xs))) names values.tail xs.tail

/-- The condition on a statement, in the state before it. -/
def Agrees (notes : Notes) (s : State) : Stmt → Prop
  | .local_ names values => ValuesFit w m names values s ∧
      (evalAll w values s).Then fun xs s' => Redeclares m notes s'.locals names values xs
  | .localrec name => m.named name → notes.tables name = none
  -- an assignment to the returned table, under whatever name
  | .set [.index (.id table) (.string field)] (value :: more) =>
      (eval w (.id table) s).Then fun b s1 => (eval w value s1).Then fun x s2 =>
        (evalAll w more s2).Then fun _ s3 =>
          ∀ name a fields, m.named name → s3.locals name = some (.table a) →
            (notes.assign table field value).tables name = some fields →
            store w s3.heap maxDepth (first b) (.string field) = .write a →
            Fits m fields (.string field) (first x)
  | .return_ [.table items] => ConstructorFits w m items s
  | _ => True

/-- Each statement that the run comes to meets the condition. -/
def Agreeing (provided : Text → Bool) (notes : Notes) (s : State) : List Stmt → Prop
  | [] => True
  | stmt :: rest => Agrees w m notes s stmt ∧
      ((exec w stmt s).value = some none →
        Agreeing provided (walkStmt provided rest.isEmpty notes stmt).1 (exec w stmt s).state rest)

/-- A function that is called leaves the returned local, and the entry points in its table;
the built-in `require` of an embedded module does so anyway. -/
def Spares (require : Nat) (embedded : Text → Bool) (step : State × Operation) : Prop :=
  ∀ f args, .called f args ∈ step.2.effects w step.1 → OfEmbedded require embedded f args ∨
    ∀ name, m.named name → (w.call f args step.1).1.locals name = step.1.locals name ∧
      ∀ a ∈ step.1.made, step.1.locals name = some (.table a) →
        Keeps m step.1 (w.call f args step.1).1 a

end Conditions

/-- What holds of calls: the heap grows, a table whose constructor has not come to its end
is known to nobody, and an embedded module knows neither the locals nor the tables of the
file. -/
structure Callees (w : World) (require : Nat) (embedded : Text → Bool) (start : State) : Prop where
  grown : ∀ f args s, s.heap.next ≤ (w.call f args s).1.heap.next
  made : ∀ f args s, (w.call f args s).1.made = s.made
  building : ∀ f args s, (w.call f args s).1.building = s.building
  unfinished : ∀ f args s, ∀ a ∈ s.building, start.heap.next ≤ a →
    (w.call f args s).1.heap.objects a = s.heap.objects a
  locals : ∀ f args, OfEmbedded require embedded f args → ∀ s,
    (w.call f args s).1.locals = s.locals
  tables : ∀ f args, OfEmbedded require embedded f args → ∀ s, ∀ a ∈ s.made, start.heap.next ≤ a →
    (w.call f args s).1.heap.objects a = s.heap.objects a

/-! ## What stays as it is -/

/-- The tables of the file did not exist before. -/
structure Ready (start s : State) : Prop extends Fresh start.heap.next s where
  made : ∀ a ∈ s.made, start.heap.next ≤ a ∧ a < s.heap.next
  within : s.building ⊆ s.made

/-- A table that is being built, or the one that the returned local stands for. -/
def Guarded (m : Module) (s : State) (a : Nat) : Prop :=
  a ∈ s.made ∧ (a ∈ s.building ∨ ∃ name, m.named name ∧ s.locals name = some (.table a))

section Exports
variable {w : World} {require : Nat} {embedded provided : Text → Bool} {start : State} {m : Module}

theorem Keeps.refl (s : State) (a : Nat) : Keeps m s s a := ⟨id, fun _ _ => id⟩

theorem Keeps.trans {s s' s'' : State} {a : Nat} (first : Keeps m s s' a)
    (second : Keeps m s' s'' a) : Keeps m s s'' a :=
  ⟨fun plain => second.plain (first.plain plain), fun point member isFunction =>
    second.points point member (first.points point member isFunction)⟩

theorem Keeps.of_eq {s s' : State} {a : Nat} (same : s'.heap.objects a = s.heap.objects a) :
    Keeps m s s' a :=
  ⟨by rw [same]; exact id, fun _ _ => by rw [same]; exact id⟩

variable (start m) in
/-- What an expression, or a part of one, leaves behind; one table may be written to. -/
structure Onward (but : Option Nat) (s s' : State) : Prop where
  ready : Ready start s'
  made : s.made ⊆ s'.made
  building : s'.building = s.building
  locals : ∀ name, m.named name → s'.locals name = s.locals name
  guarded : ∀ a, Guarded m s a → but ≠ some a → Keeps m s s' a

section Onward
variable {but : Option Nat} {s s' s'' : State}

theorem Onward.refl (ready : Ready start s) : Onward start m but s s :=
  ⟨ready, List.Subset.refl _, rfl, fun _ _ => rfl, fun a _ _ => .refl s a⟩

theorem Guarded.onward {a : Nat} (guarded : Guarded m s a) (onward : Onward start m but s s') :
    Guarded m s' a := by
  refine ⟨onward.made guarded.1, ?_⟩
  rcases guarded.2 with inside | ⟨name, named, isLocal⟩
  · rw [onward.building]
    exact .inl inside
  · rw [← onward.locals name named] at isLocal
    exact .inr ⟨name, named, isLocal⟩

theorem Onward.trans (first : Onward start m but s s') (second : Onward start m but s' s'') :
    Onward start m but s s'' := by
  refine ⟨second.ready, List.Subset.trans first.made second.made,
    second.building.trans first.building, ?_, ?_⟩
  · intro name named
    rw [second.locals name named, first.locals name named]
  · intro a guarded other
    exact (first.guarded a guarded other).trans
      (second.guarded a (guarded.onward first) other)

theorem Onward.weaken (onward : Onward start m none s s') (but : Option Nat) :
    Onward start m but s s' :=
  ⟨onward.ready, onward.made, onward.building, onward.locals,
    fun a guarded _ => onward.guarded a guarded (by simp)⟩

end Onward

section Steps
variable {but : Option Nat} {s : State}

theorem onward_call (callees : Callees w require embedded start) (ready : Ready start s) {f : Value}
    {args : List Value} (spared : OfEmbedded require embedded f args ∨
      ∀ name, m.named name → (w.call f args s).1.locals name = s.locals name ∧
        ∀ a ∈ s.made, s.locals name = some (.table a) → Keeps m s (w.call f args s).1 a) :
    Onward start m but s (w.call f args s).1 := by
  have grown := callees.grown f args s
  have made := callees.made f args s
  have building := callees.building f args s
  have unfinished {a : Nat} (inside : a ∈ s.building) :
      (w.call f args s).1.heap.objects a = s.heap.objects a :=
    callees.unfinished f args s a inside (ready.building a inside).1
  refine ⟨⟨⟨ready.grown.trans grown, ?_⟩, ?_, ?_⟩, ?_, building, ?_, ?_⟩
  · intro a member
    rw [building] at member
    rw [unfinished member]
    obtain ⟨new, below, plain⟩ := ready.building a member
    exact ⟨new, below.trans_le grown, plain⟩
  · intro a member
    rw [made] at member
    obtain ⟨new, below⟩ := ready.made a member
    exact ⟨new, below.trans_le grown⟩
  · rw [building, made]
    exact ready.within
  · rw [made]
    exact List.Subset.refl _
  · intro name named
    rcases spared with embedded | leaves
    · rw [callees.locals f args embedded]
    · exact (leaves name named).1
  · rintro a ⟨known, inside | ⟨name, named, isLocal⟩⟩ _
    · exact .of_eq (unfinished inside)
    · rcases spared with embedded | leaves
      · exact .of_eq (callees.tables f args embedded s a known (ready.made a known).1)
      · exact (leaves name named).2 a known isLocal

theorem leads_perform (callees : Callees w require embedded start) (ready : Ready start s)
    {op : Operation} (quiet : ∀ v k x, op ≠ .assign v k x) :
    Leads (Spares w m require embedded) (Spares w m require embedded) (Onward start m but)
      (fun _ => True) s (perform w op s) := by
  refine Leads.perform Iff.rfl (Exact.perform Iff.rfl fun spared => ?_) fun _ _ => trivial
  rcases Operation.act_cases w quiet s with same | ⟨f, args, called, same⟩
  · rw [same]
    exact .refl ready
  · rw [same]
    exact onward_call callees ready (spared f args called)

theorem Ready.put (ready : Ready start s) (a : Nat) (k x : Value) :
    Ready start { s with heap := s.heap.put a k x } :=
  ⟨ready.toFresh.put a k x, ready.made, ready.within⟩

theorem onward_put (ready : Ready start s) (a : Nat) (k x : Value) :
    Onward start m (some a) s { s with heap := s.heap.put a k x } := by
  refine ⟨ready.put a k x, List.Subset.refl _, rfl, fun _ _ => rfl, ?_⟩
  intro b _ other
  apply Keeps.of_eq
  apply Heap.objects_put_of_ne
  rintro rfl
  exact other rfl

/-- An item is written, unless an error is raised. -/
theorem act_item (ready : Ready start s) {a : Nat} (inside : a ∈ s.building) (k x : Value) :
    (Operation.act w s (.assign (.table a) k x)) = ({ s with heap := s.heap.put a k x }, some []) ∨
      (Operation.act w s (.assign (.table a) k x)) = (s, none) := by
  rcases store_plain w (ready.building a inside).2.2 k with write | raised
  · rw [Operation.act, write]
    exact .inl rfl
  · rw [Operation.act, raised]
    exact .inr rfl

theorem goes_item (ready : Ready start s) {a : Nat} (inside : a ∈ s.building) (k x : Value) :
    Ensures (Spares w m require embedded) (perform w (.assign (.table a) k x) s) fun _ s' =>
      Onward start m (some a) s s' ∧ s'.heap = s.heap.put a k x := by
  apply Ensures.perform
  intro _ values ran
  rcases act_item (w := w) ready inside k x with written | raised
  · rw [written]
    exact ⟨onward_put ready a k x, rfl⟩
  · rw [raised] at ran
    cases ran

end Steps

/-! ## Expressions -/

theorem ready_newTable {s : State} (ready : Ready start s) : Ready start (newTable s).state := by
  refine ⟨ready.toFresh.newTable, fun a member => ?_, List.cons_subset_cons _ ready.within⟩
  rcases List.mem_cons.mp member with rfl | earlier
  · exact ⟨ready.grown, Nat.lt_succ_self _⟩
  · obtain ⟨new, below⟩ := ready.made a earlier
    exact ⟨new, Nat.lt_succ_of_lt below⟩

/-- A new table that is filled is nobody else's. -/
theorem onward_table {s s' : State} (ready : Ready start s)
    (filled : Onward start m (some s.heap.next) (newTable s).state s') :
    Onward start m none s (finish s') := by
  have building : s'.building = s.heap.next :: s.building := filled.building
  refine ⟨⟨filled.ready.toFresh.finish, filled.ready.made, ?_⟩,
    fun a member => filled.made (List.mem_cons_of_mem _ member), ?_, filled.locals, ?_⟩
  · intro a member
    exact filled.ready.within (List.mem_of_mem_tail member)
  · rw [finish, building]
    rfl
  · intro a guarded _
    have below := (ready.made a guarded.1).2
    have guarded' : Guarded m (newTable s).state a :=
      ⟨List.mem_cons_of_mem _ guarded.1, guarded.2.imp_left (List.mem_cons_of_mem _)⟩
    have other : some s.heap.next ≠ some a := by
      rintro ⟨⟩
      omega
    have kept := filled.guarded a guarded' other
    exact (Keeps.of_eq (objects_newTable_of_ne (by omega))).trans ⟨kept.plain, kept.points⟩

theorem ready_newFunction {s : State} (ready : Ready start s) :
    Ready start (newFunction s).state := by
  refine ⟨ready.toFresh.newFunction, fun a member => ?_, ready.within⟩
  obtain ⟨new, below⟩ := ready.made a member
  exact ⟨new, Nat.lt_succ_of_lt below⟩

theorem passage_exports (callees : Callees w require embedded start) :
    Passage w (Spares w m require embedded) (Spares w m require embedded) (Onward start m)
      (fun _ => True) where
  trans := Onward.trans
  weaken onward := onward.weaken _
  passed onward := .refl onward.ready
  building := Onward.building
  ended _ := trivial
  access onward quiet _ := leads_perform callees onward.ready quiet
  function onward := ⟨ready_newFunction onward.ready, List.Subset.refl _, rfl, fun _ _ => rfl,
    fun _ _ _ => .of_eq rfl⟩
  table onward := .refl (ready_newTable onward.ready)
  item := by
    intro s a onward inside k x
    refine Leads.perform Iff.rfl (Exact.perform Iff.rfl fun _ => ?_) fun _ _ => trivial
    rcases act_item (w := w) onward.ready inside k x with written | raised
    · rw [written]
      exact onward_put onward.ready a k x
    · rw [raised]
      exact .refl onward.ready
  finish onward filled := onward_table onward.ready filled

/-- Any expression at all. -/
theorem admits_exports (callees : Callees w require embedded start) :
    Admits w (Spares w m require embedded) (Spares w m require embedded) (Onward start m)
      (fun _ => True) fun _ => True where
  paren _ := trivial
  unary _ := trivial
  index _ := ⟨trivial, trivial⟩
  binary _ := ⟨trivial, trivial⟩
  table _ item _ := by cases item <;> simp [Item.All]
  call _ := ⟨trivial, fun _ _ => trivial⟩
  invoke _ := ⟨trivial, fun _ _ => trivial⟩
  called _ _ _ _ onward := leads_perform callees onward.ready (by simp)
  invoked _ _ onward _ _ := leads_perform callees onward.ready (by simp)

theorem goes_eval (callees : Callees w require embedded start) (e : Expr) (s : State)
    (ready : Ready start s) :
    Ensures (Spares w m require embedded) (eval w e s) fun _ s' => Onward start m none s s' :=
  ((passage_exports callees).leads_eval (admits_exports callees) e s trivial
    (.refl ready)).ensures

theorem goes_evalAll (callees : Callees w require embedded start) (values : List Expr) (s : State)
    (ready : Ready start s) :
    Ensures (Spares w m require embedded) (evalAll w values s) fun _ s' =>
      Onward start m none s s' :=
  ((passage_exports callees).leads_evalAll (admits_exports callees) values s
    (fun _ _ => trivial) (.refl ready)).ensures

/-! ## Constructors -/

/-- The entry points are functions where they are noted as fields of the table. -/
def Contains (m : Module) (fields : Text → Option Expr) (s : State) (a : Nat) : Prop :=
  ∀ field node, fields field = some node → m.entry field node →
    ((s.heap.objects a).rawGet (.string field)).isFunction = true

theorem Contains.keeps {fields : Text → Option Expr} {s s' : State} {a : Nat}
    (holds : Contains m fields s a) (keeps : Keeps m s s' a) : Contains m fields s' a := by
  intro field node found isEntry
  obtain ⟨point, member, rfl⟩ := isEntry.1
  exact keeps.points point member (holds _ node found isEntry)

/-- An entry is put that fits what is noted then. -/
theorem Contains.put {fields fields' : Text → Option Expr} {s s' : State} {a : Nat} {k x : Value}
    (holds : Contains m fields s a) (fits : Fits m fields' k x)
    (others : ∀ field, k.key ≠ .string field → fields' field = fields field)
    (written : s'.heap = s.heap.put a k x) : Contains m fields' s' a := by
  intro field node found isEntry
  rw [written, Heap.objects_put_self]
  by_cases same : k.key = .string field
  · rw [Object.rawGet_rawSet_self _ same]
    exact fits field node same found isEntry
  · rw [Object.rawGet_rawSet_of_ne _ same]
    rw [others field same] at found
    exact holds field node found isEntry

theorem key_number (n : Double) (field : Text) : (Value.number n).key ≠ .string field := by
  rw [Value.key]
  exact fun same => Value.noConfusion same

theorem fits_number (fields : Text → Option Expr) (n : Double) (x : Value) :
    Fits m fields (.number n) x :=
  fun field _ same => absurd same (key_number n field)

theorem fieldsFrom_cons (fields : Text → Option Expr) (item : Item) (rest : List Item) :
    fieldsFrom fields (item :: rest) = fieldsFrom (fieldsFrom fields [item]) rest := by
  cases item with
  | pair key value => cases key <;> rfl
  | item value => rfl

/-- What an item notes is under its key. -/
theorem fieldsFrom_other {fields : Text → Option Expr} {key value : Expr} {s : State}
    {k : List Value} (ran : (eval w key s).value = some k) {field : Text}
    (other : (first k).key ≠ .string field) :
    fieldsFrom fields [.pair key value] field = fields field := by
  cases key with
  | string name =>
      rw [eval] at ran
      cases ran
      apply Function.update_of_ne
      rintro rfl
      exact other rfl
  | _ => rfl

theorem contains_storeFrom {a : Nat} {fields : Text → Option Expr} (values : List Value) (i : Nat)
    {s : State} (ready : Ready start s) (inside : a ∈ s.building) (holds : Contains m fields s a) :
    Ensures (Spares w m require embedded) (storeFrom w a i values s) fun _ s' =>
      Onward start m (some a) s s' ∧ Contains m fields s' a := by
  induction values generalizing i s with
  | nil => exact Ensures.pure ⟨.refl ready, holds⟩
  | cons v rest inductionHypothesis =>
      rw [storeFrom]
      refine Ensures.bind (goes_item ready inside _ v) ?_
      rintro _ - ⟨onward, written⟩
      have holds' := holds.put (fits_number fields _ v) (fun _ _ => rfl) written
      refine Ensures.mono (inductionHypothesis (i + 1) onward.ready (onward.building ▸ inside)
        holds') ?_
      rintro _ - ⟨later, contains⟩
      exact ⟨onward.trans later, contains⟩

/-- The fields of a constructor whose items fit are functions where the notes say so. -/
theorem contains_evalItems (callees : Callees w require embedded start) {a : Nat}
    (items : List Item) {fields : Text → Option Expr} (i : Nat) {s : State} (ready : Ready start s)
    (inside : a ∈ s.building) (fit : ItemsFit w m a fields i items s)
    (holds : Contains m fields s a) :
    Ensures (Spares w m require embedded) (evalItems w a i items s) fun _ s' =>
      Onward start m (some a) s s' ∧ Contains m (fieldsFrom fields items) s' a := by
  have guarded {s : State} (ready : Ready start s) (inside : a ∈ s.building) : Guarded m s a :=
    ⟨ready.within inside, .inl inside⟩
  induction items generalizing fields i s with
  | nil =>
      rw [evalItems]
      exact Ensures.pure ⟨.refl ready, holds⟩
  | cons item rest inductionHypothesis =>
      rw [fieldsFrom_cons]
      cases item with
      | pair key value =>
          rw [evalItems]
          refine Ensures.bind (goes_eval callees key s ready) fun k ofKey first => ?_
          refine Ensures.bind (goes_eval callees value _ first.ready) fun x ofValue second => ?_
          have reached := first.trans second
          obtain ⟨fits, behind⟩ := fit k ofKey x ofValue
          refine Ensures.bind (goes_item reached.ready (reached.building ▸ inside) _ _) ?_
          rintro _ ran ⟨third, written⟩
          have through := (reached.weaken (some a)).trans third
          have holds' := (holds.keeps (reached.guarded a (guarded ready inside) (by simp))).put fits
            (fun field other => fieldsFrom_other ofKey other) written
          refine Ensures.mono (inductionHypothesis i through.ready (through.building ▸ inside)
            (behind _ ran) holds') ?_
          rintro _ - ⟨later, contains⟩
          exact ⟨through.trans later, contains⟩
      | item value =>
          have here : Ensures (Spares w m require embedded) (eval w value s) fun _ s' =>
              Onward start m none s s' := goes_eval callees value s ready
          cases rest with
          | nil =>
              rw [evalItems]
              refine Ensures.bind here fun xs _ first => ?_
              refine Ensures.mono (contains_storeFrom xs i first.ready (first.building ▸ inside)
                (holds.keeps (first.guarded a (guarded ready inside) (by simp)))) ?_
              rintro _ - ⟨later, contains⟩
              exact ⟨(first.weaken _).trans later, contains⟩
          | cons next rest =>
              rw [evalItems]
              · refine Ensures.bind here fun x ofValue first => ?_
                refine Ensures.bind (goes_item first.ready (first.building ▸ inside) _ _) ?_
                rintro _ ran ⟨second, written⟩
                have through := (first.weaken (some a)).trans second
                have holds' := (holds.keeps (first.guarded a (guarded ready inside) (by simp))).put
                  (fits_number fields _ _) (fun _ _ => rfl) written
                refine Ensures.mono (inductionHypothesis (i + 1) through.ready
                  (through.building ▸ inside) (fit x ofValue _ ran) holds') ?_
                rintro _ - ⟨later, contains⟩
                exact ⟨through.trans later, contains⟩
              · exact List.cons_ne_nil _ _

/-- A table of the file without a metatable, with the entry points in it. -/
structure Holds (m : Module) (fields : Text → Option Expr) (s : State) (a : Nat) : Prop where
  made : a ∈ s.made
  plain : (s.heap.objects a).metatable = none
  contains : Contains m fields s a

theorem Holds.keeps {fields : Text → Option Expr} {s s' : State} {a : Nat}
    (holds : Holds m fields s a) (made : s.made ⊆ s'.made) (keeps : Keeps m s s' a) :
    Holds m fields s' a :=
  ⟨made holds.made, keeps.plain holds.plain, holds.contains.keeps keeps⟩

theorem holds_table (callees : Callees w require embedded start) {items : List Item} {s : State}
    (ready : Ready start s) (fit : ConstructorFits w m items s) :
    Ensures (Spares w m require embedded) (eval w (.table items) s) fun xs s' =>
      Onward start m none s s' ∧ xs = [.table s.heap.next] ∧
        Holds m (fieldsOf items) s' s.heap.next := by
  have empty : Contains m (fun _ => none) (newTable s).state s.heap.next := by
    rintro field node ⟨⟩
  have filled := contains_evalItems callees items 1 (ready_newTable ready) List.mem_cons_self fit
    empty
  rw [eval]
  refine Ensures.bind (q := fun a s' => a = s.heap.next ∧ s' = (newTable s).state) ?_ ?_
  · rintro _ _ ⟨⟩
    exact ⟨rfl, rfl⟩
  · rintro _ - ⟨rfl, -⟩
    refine Ensures.bind filled ?_
    rintro _ - ⟨onward, contains⟩ _ _ ⟨⟩
    have inside :
        s.heap.next ∈ (evalItems w s.heap.next 1 items (newTable s).state).state.building := by
      rw [onward.building]
      exact List.mem_cons_self
    obtain ⟨-, -, plain⟩ := onward.ready.building _ inside
    exact ⟨onward_table ready onward, rfl, onward.ready.within inside, plain, contains⟩

/-! ## Declarations -/

/-- What the values of a declaration are. -/
def Given (m : Module) (s : State) : List Text → List Expr → List Value → Prop
  | name :: names, value :: values, xs =>
      (∀ items, value = .table items → m.named name →
        ∃ a, first xs = .table a ∧ Holds m (fieldsOf items) s a) ∧
      Given m s names values xs.tail
  | _, _, _ => True

theorem given_evalAll (callees : Callees w require embedded start) {names : List Text}
    {values : List Expr} {s : State} (ready : Ready start s) (fit : ValuesFit w m names values s) :
    Ensures (Spares w m require embedded) (evalAll w values s) fun xs s' =>
      Onward start m none s s' ∧ Given m s' names values xs := by
  induction values generalizing names s with
  | nil =>
      rw [evalAll]
      refine Ensures.pure ⟨.refl ready, ?_⟩
      cases names <;> trivial
  | cons value rest inductionHypothesis =>
      cases names with
      | nil =>
          refine Ensures.mono (goes_evalAll callees _ s ready) ?_
          exact fun _ _ onward => ⟨onward, trivial⟩
      | cons name names =>
          obtain ⟨own, behind⟩ := fit
          -- the value itself
          have here : Ensures (Spares w m require embedded) (eval w value s) fun xs s' =>
              Onward start m none s s' ∧ ∀ items, value = .table items → m.named name →
                xs = [.table s.heap.next] ∧ Holds m (fieldsOf items) s' s.heap.next := by
            by_cases isTable : ∃ items, value = .table items ∧ m.named name
            · obtain ⟨items, rfl, named⟩ := isTable
              refine Ensures.mono (holds_table callees ready (own items rfl named).1) ?_
              rintro xs - ⟨onward, same, holds⟩
              exact ⟨onward, fun _ is _ => ⟨same, by cases is; exact holds⟩⟩
            · refine Ensures.mono (goes_eval callees value s ready) fun xs _ onward => ⟨onward, ?_⟩
              intro items is named
              exact absurd ⟨items, is, named⟩ isTable
          cases rest with
          | nil =>
              rw [evalAll]
              refine Ensures.mono here ?_
              rintro xs - ⟨onward, holds⟩
              refine ⟨onward, fun items is named => ?_, by cases names <;> trivial⟩
              obtain ⟨same, table⟩ := holds items is named
              rw [same]
              exact ⟨_, rfl, table⟩
          | cons next rest =>
              rw [evalAll]
              · refine Ensures.bind here ?_
                rintro x ofValue ⟨first_, holds⟩
                refine Ensures.bind (inductionHypothesis first_.ready (behind x ofValue)) ?_
                rintro xs ofRest ⟨second, given⟩
                refine Ensures.pure ⟨first_.trans second, fun items is named => ?_, given⟩
                obtain ⟨same, table⟩ := holds items is named
                rw [same]
                exact ⟨_, rfl, table.keeps second.made
                  ((own items is named).2 _ ofValue _ ofRest)⟩
              · exact List.cons_ne_nil _ _

/-- The notes are right about the returned local. -/
def Right (m : Module) (notes : Notes) (s : State) : Prop :=
  ∀ name fields, m.named name → notes.tables name = some fields →
    ∃ a, s.locals name = some (.table a) ∧ Holds m fields s a

theorem Right.onward {notes : Notes} {s s' : State} (right : Right m notes s)
    (onward : Onward start m none s s') : Right m notes s' := by
  intro name fields named noted
  obtain ⟨a, isLocal, holds⟩ := right name fields named noted
  refine ⟨a, (onward.locals name named).trans isLocal, holds.keeps onward.made ?_⟩
  exact onward.guarded a ⟨holds.made, .inr ⟨name, named, isLocal⟩⟩ (by simp)

/-- The state with one more local. -/
def bindLocal (s : State) (name : Text) (x : Value) : State :=
  { s with locals := Function.update s.locals name (some x) }

theorem Holds.bindLocal {fields : Text → Option Expr} {s : State} {a : Nat}
    (holds : Holds m fields s a) (name : Text) (x : Value) :
    Holds m fields (bindLocal s name x) a :=
  ⟨holds.made, holds.plain, holds.contains⟩

theorem Given.bindLocal {s : State} {names : List Text} {values : List Expr} {xs : List Value}
    (given : Given m s names values xs) (name : Text) (x : Value) :
    Given m (bindLocal s name x) names values xs := by
  induction values generalizing names xs with
  | nil => cases names <;> trivial
  | cons value values inductionHypothesis =>
      cases names with
      | nil => trivial
      | cons head names =>
          refine ⟨fun items same named => ?_, inductionHypothesis given.2⟩
          obtain ⟨a, isTable, holds⟩ := given.1 items same named
          exact ⟨a, isTable, holds.bindLocal name x⟩

theorem bind_tables_of_ne {notes : Notes} {name other : Text} (different : other ≠ name)
    (node : Expr) : (notes.bind name node).tables other = notes.tables other := by
  cases node with
  | table items => exact Function.update_of_ne different ..
  | _ => rfl

/-- One name and its value. -/
theorem Right.bind {notes : Notes} {s : State} (right : Right m notes s) {name : Text} {node : Expr}
    {x : Value} (kept : m.named name → notes.tables name ≠ none → isTable node = false →
      s.locals name = some x)
    (given : ∀ items, node = .table items → m.named name →
      ∃ a, x = .table a ∧ Holds m (fieldsOf items) s a) :
    Right m (notes.bind name node) (bindLocal s name x) := by
  intro other fields named noted
  by_cases same : other = name
  · subst same
    have own : (Qwe.Plugin.bindLocal s other x).locals other = some x := Function.update_self ..
    by_cases constructed : ∃ items, node = .table items
    · obtain ⟨items, rfl⟩ := constructed
      obtain ⟨a, rfl, holds⟩ := given items rfl named
      have found : (notes.bind other (.table items)).tables other = some (fieldsOf items) :=
        Function.update_self ..
      rw [found] at noted
      cases noted
      exact ⟨a, own, holds.bindLocal other _⟩
    · have before : notes.tables other = some fields ∧ isTable node = false := by
        cases node with
        | table items => exact absurd ⟨items, rfl⟩ constructed
        | _ => exact ⟨noted, rfl⟩
      obtain ⟨a, isLocal, holds⟩ := right other fields named before.1
      rw [kept named (by rw [before.1]; simp) before.2] at isLocal
      cases isLocal
      exact ⟨a, own, holds.bindLocal other _⟩
  · rw [bind_tables_of_ne same] at noted
    obtain ⟨a, isLocal, holds⟩ := right other fields named noted
    have apart : (Qwe.Plugin.bindLocal s name x).locals other = s.locals other :=
      Function.update_of_ne same ..
    exact ⟨a, apart.trans isLocal, holds.bindLocal name x⟩

theorem walkValues_nameless {notes : Notes} {values : List Expr}
    (allInert : ∀ e ∈ values, inert provided e = true) :
    (walkValues provided notes [] values).1 = notes := by
  induction values with
  | nil => rw [walkValues]
  | cons value rest inductionHypothesis =>
      rw [walkValues, if_pos (allInert value List.mem_cons_self)]
      exact inductionHypothesis fun e member => allInert e (List.mem_cons_of_mem _ member)

theorem right_declare {notes : Notes} {names : List Text} {s : State} {values : List Expr}
    {xs : List Value} (right : Right m notes s)
    (redeclares : Redeclares m notes s.locals names values xs) (given : Given m s names values xs)
    (allInert : ∀ e ∈ values, inert provided e = true) :
    Right m (walkValues provided notes names values).1 (declare s names xs) := by
  induction names generalizing notes s values xs with
  | nil =>
      rw [walkValues_nameless allInert, declare]
      exact right
  | cons name names inductionHypothesis =>
      change Right m _ (declare (bindLocal s name (first xs)) names xs.tail)
      obtain ⟨kept, later⟩ := redeclares
      cases values with
      | nil =>
          have walked : (walkValues provided notes (name :: names) []).1
              = (walkValues provided notes names []).1 := by
            rw [walkValues, walkValues]
          rw [walked]
          -- a name without a value is declared as nil
          have bound : Right m (notes.bind name .nil) (bindLocal s name (first xs)) :=
            right.bind kept fun items same => Expr.noConfusion same
          exact inductionHypothesis bound later (by cases names <;> trivial) allInert
      | cons value values =>
          rw [walkValues, if_pos (allInert value List.mem_cons_self)]
          have bound := right.bind kept given.1
          exact inductionHypothesis bound later (given.2.bindLocal _ _)
            (fun e member => allInert e (List.mem_cons_of_mem _ member))

theorem ready_declare {s : State} (ready : Ready start s) (names : List Text) (xs : List Value) :
    Ready start (declare s names xs) := by
  obtain ⟨sameHeap, sameMade, sameBuilding⟩ := declare_rest names xs s
  refine ⟨ready.toFresh.declare names xs, ?_, ?_⟩
  · rw [sameHeap, sameMade]
    exact ready.made
  · rw [sameMade, sameBuilding]
    exact ready.within

/-! ## Assignments -/

/-- What is noted behind an assignment was noted before it, but for the field. -/
theorem assign_cases {notes : Notes} {table field name : Text} {value : Expr}
    {fields : Text → Option Expr}
    (noted : (notes.assign table field value).tables name = some fields) :
    ∃ before, notes.tables name = some before ∧
      (name = table ∧ fields = Function.update before field (some value) ∨
        name ≠ table ∧ fields = before) := by
  unfold Notes.assign at noted
  cases known : notes.tables table with
  | none =>
      rw [known] at noted
      refine ⟨fields, noted, .inr ⟨?_, rfl⟩⟩
      rintro rfl
      rw [known] at noted
      cases noted
  | some before =>
      rw [known] at noted
      dsimp only at noted
      by_cases same : name = table
      · subst same
        rw [Function.update_self] at noted
        cases noted
        exact ⟨before, known, .inl ⟨rfl, rfl⟩⟩
      · rw [Function.update_of_ne same] at noted
        exact ⟨fields, noted, .inr ⟨same, rfl⟩⟩

/-- An assignment that fits what is noted. -/
theorem right_assign (callees : Callees w require embedded start) {notes : Notes} {s : State}
    (ready : Ready start s) (right : Right m notes s) {table field : Text} {value : Expr}
    {v x : Value} (own : ∀ a, m.named table → s.locals table = some (.table a) → v = .table a)
    (agrees : ∀ name a fields, m.named name → s.locals name = some (.table a) →
      (notes.assign table field value).tables name = some fields →
      store w s.heap maxDepth v (.string field) = .write a → Fits m fields (.string field) x) :
    Ensures (Spares w m require embedded) (perform w (.assign v (.string field) x) s)
      fun _ s' => Ready start s' ∧ Right m (notes.assign table field value) s' := by
  apply Ensures.perform
  intro spared values ran
  -- what is assigned to under the returned name is its table
  have written {name : Text} {a : Nat} (named : m.named name)
      (isLocal : s.locals name = some (.table a)) (plain : (s.heap.objects a).metatable = none)
      (same : name = table) : store w s.heap maxDepth v (.string field) = .write a ∨
        store w s.heap maxDepth v (.string field) = .raised := by
    subst same
    rw [own a named isLocal]
    exact store_plain w plain _
  unfold Spares at spared
  rw [Operation.effects] at spared
  rw [Operation.act] at ran ⊢
  generalize target : store w s.heap maxDepth v (.string field) = reached at spared ran written ⊢
  cases reached with
  | raised => cases ran
  | write b =>
      refine ⟨ready.put b _ x, ?_⟩
      intro name fields named noted
      obtain ⟨before, known, which⟩ := assign_cases noted
      obtain ⟨a, isLocal, holds⟩ := right name before named known
      refine ⟨a, isLocal, holds.made, ?_, ?_⟩
      · dsimp only
        rw [Heap.metatable_put]
        exact holds.plain
      · by_cases same : a = b
        · subst same
          refine holds.contains.put (agrees name a fields named isLocal noted target) ?_ rfl
          intro other different
          rcases which with ⟨-, rfl⟩ | ⟨-, rfl⟩
          · exact Function.update_of_ne (fun is => different (by rw [is]; rfl)) ..
          · rfl
        · rcases which with ⟨isOwn, -⟩ | ⟨-, rfl⟩
          · rcases written named isLocal holds.plain isOwn with is | is
            · cases is
              exact absurd rfl same
            · cases is
          · exact holds.contains.keeps (.of_eq (Heap.objects_put_of_ne _ same _ _))
  | call f =>
      dsimp only at spared ran ⊢
      by_cases some_ : callable s.heap f = true
      · rw [calls, if_pos some_] at spared
        rw [apply, if_pos some_]
        have onward : Onward start m none s (w.call f [v, .string field, x] s).1 :=
          onward_call callees ready (spared f _ (List.mem_singleton.mpr rfl))
        refine ⟨onward.ready, ?_⟩
        intro name fields named noted
        obtain ⟨before, known, ⟨isOwn, -⟩ | ⟨-, rfl⟩⟩ := assign_cases noted
        · obtain ⟨a, isLocal, holds⟩ := right name before named known
          rcases written named isLocal holds.plain isOwn with is | is <;> cases is
        · exact right.onward onward name fields named known
      · rw [apply, if_neg some_] at ran
        cases ran

/-! ## Statements -/

theorem exec_set_field (base : Expr) (field : Text) (value : Expr) (more : List Expr) :
    exec w (.set [.index base (.string field)] (value :: more)) = (do
      let b ← eval w base
      let x ← eval w value
      let _ ← evalAll w more
      let _ ← perform w (.assign (first b) (.string field) (first x))
      pure none) := by
  have key : eval w (.string field) = pure [.string field] := by rw [eval]
  rw [exec_set]
  simp only [key, Eval.pure_bind]
  rfl

theorem first_of_local {s : State} {name : Text} {v : Value} (isLocal : s.locals name = some v)
    {values : List Value} (ran : (eval w (.id name) s).value = some values) : first values = v := by
  rw [eval, readName_local w isLocal] at ran
  cases ran
  rfl

/-- A statement that is not a return. -/
theorem right_exec (callees : Callees w require embedded start) (last : Bool) {stmt : Stmt}
    (admitted : Admitted provided stmt) (goesOn : ∀ value, stmt ≠ .return_ [value]) {notes : Notes}
    {s : State} (ready : Ready start s) (right : Right m notes s)
    (agrees : Agrees w m notes s stmt) :
    Ensures (Spares w m require embedded) (exec w stmt s) fun returned s' =>
      returned = none ∧ Ready start s' ∧ Right m (walkStmt provided last notes stmt).1 s' := by
  cases stmt with
  | local_ names values =>
      obtain ⟨fit, redeclares⟩ := agrees
      rw [exec]
      refine Ensures.bind (given_evalAll callees ready fit) ?_
      rintro xs ran ⟨onward, given⟩ _ _ ⟨⟩
      exact ⟨rfl, ready_declare onward.ready names xs,
        right_declare (right.onward onward) (redeclares xs ran) given admitted⟩
  | localrec name =>
      have made : Ensures (Spares w m require embedded) (eval w .function s) fun _ s' =>
          Onward start m none s s' := goes_eval callees .function s ready
      rw [eval] at made
      rw [exec]
      refine Ensures.bind made ?_
      rintro xs - onward _ _ ⟨⟩
      have bound : Right m (notes.bind name .function)
          (bindLocal (newFunction s).state name (first xs)) :=
        (right.onward onward).bind (fun named noted => absurd (agrees named) noted)
          fun items same => Expr.noConfusion same
      exact ⟨rfl, ready_declare onward.ready [name] xs, bound⟩
  | set targets values =>
      obtain ⟨table, field, value, more, rfl, rfl, isInert⟩ := admitted
      rw [walkStmt, if_pos isInert, exec_set_field]
      refine Ensures.bind (goes_eval callees (.id table) s ready) fun b ofBase first_ => ?_
      refine Ensures.bind (goes_eval callees value _ first_.ready) fun x ofValue second => ?_
      refine Ensures.bind (goes_evalAll callees more _ second.ready) fun xs ofMore third => ?_
      have onward := (first_.trans second).trans third
      refine Ensures.bind (right_assign callees onward.ready (right.onward onward) ?_
        (agrees b ofBase x ofValue xs ofMore)) ?_
      · intro a named isLocal
        rw [onward.locals table named] at isLocal
        exact first_of_local isLocal ofBase
      · rintro _ - holds _ _ ⟨⟩
        exact ⟨rfl, holds⟩
  | return_ values =>
      obtain ⟨value, rfl⟩ := admitted
      exact absurd rfl (goesOn value)
  | other tag => cases admitted

/-- The table that the last statement returns. -/
theorem contains_return (callees : Callees w require embedded start) {value : Expr} {s : State}
    (ready : Ready start s) (right : Right m m.notes s)
    (agrees : Agrees w m m.notes s (.return_ [value])) (isReturned : m.returned = some value)
    {fields : Text → Option Expr}
    (exports : exportsOf m.notes m.returned = some fields) :
    Ensures (Spares w m require embedded) (exec w (.return_ [value]) s) fun returned s' =>
      ∃ values a, returned = some values ∧ first values = .table a ∧ Contains m fields s' a := by
  rw [isReturned] at exports
  rw [exec, evalAll]
  cases value with
  | table items =>
      cases exports
      refine Ensures.bind (holds_table callees ready agrees) ?_
      rintro _ - ⟨-, rfl, holds⟩ _ _ ⟨⟩
      exact ⟨_, _, rfl, rfl, holds.contains⟩
  | id name =>
      obtain ⟨a, isLocal, holds⟩ := right name fields isReturned exports
      rw [eval]
      have read : Ensures (Spares w m require embedded) (readName w name s) fun values s' =>
          first values = .table a ∧ Contains m fields s' a := by
        rw [readName_local w isLocal]
        rintro _ _ ⟨⟩
        exact ⟨rfl, holds.contains⟩
      refine Ensures.bind read ?_
      rintro values - ⟨isTable, contains⟩ _ _ ⟨⟩
      exact ⟨values, a, rfl, isTable, contains⟩
  | _ => cases exports

/-! ## Files -/

theorem walk_cons {stmt : Stmt} {rest : List Stmt} {notes : Notes} :
    walk provided notes (stmt :: rest) =
      ((walk provided (walkStmt provided rest.isEmpty notes stmt).1 rest).1,
        (walkStmt provided rest.isEmpty notes stmt).2.1 ++
          (walk provided (walkStmt provided rest.isEmpty notes stmt).1 rest).2.1,
        (walkStmt provided rest.isEmpty notes stmt).2.2.or
          (walk provided (walkStmt provided rest.isEmpty notes stmt).1 rest).2.2) := rfl

theorem walkStmt_continues {stmt : Stmt} {last : Bool} {notes : Notes}
    (admitted : Admitted provided stmt) (goesOn : ∀ value, stmt ≠ .return_ [value]) :
    (walkStmt provided last notes stmt).2.2 = none := by
  cases stmt with
  | return_ values =>
      obtain ⟨value, rfl⟩ := admitted
      exact absurd rfl (goesOn value)
  | set targets values =>
      obtain ⟨table, field, value, more, rfl, rfl, isInert⟩ := admitted
      rw [walkStmt, if_pos isInert]
  | _ => rfl

theorem contains_run (callees : Callees w require embedded start) {file : List Stmt} {notes : Notes}
    {s : State} (fine : (walk provided notes file).2.1 = []) (ready : Ready start s)
    (right : Right m notes s) (agreeing : Agreeing w m provided notes s file)
    (isFinal : (walk provided notes file).1 = m.notes)
    (isReturned : (walk provided notes file).2.2 = m.returned) {fields : Text → Option Expr}
    (exports : exportsOf m.notes m.returned = some fields) :
    Ensures (Spares w m require embedded) (run w file s) fun values s' =>
      ∃ a, first values = .table a ∧ Contains m fields s' a := by
  induction file generalizing notes s with
  | nil =>
      rw [← isReturned] at exports
      cases exports
  | cons stmt rest inductionHypothesis =>
      rw [walk_cons] at fine isFinal isReturned
      obtain ⟨here, later⟩ := List.append_eq_nil_iff.mp fine
      have admitted : Admitted provided stmt := admitted_of_walkStmt here
      obtain ⟨agrees, agreesRest⟩ := agreeing
      rw [run]
      by_cases isReturn : ∃ value, stmt = .return_ [value]
      · obtain ⟨value, rfl⟩ := isReturn
        -- a return that is not the last statement is a problem
        cases rest with
        | cons next rest => cases here
        | nil =>
            have same : notes = m.notes := isFinal
            subst same
            refine Ensures.bind (contains_return callees ready right agrees isReturned.symm
              exports) ?_
            rintro _ - ⟨values, a, rfl, isTable, contains⟩
            exact Ensures.pure ⟨a, isTable, contains⟩
      · have goesOn : ∀ value, stmt ≠ .return_ [value] := fun value same => isReturn ⟨value, same⟩
        rw [walkStmt_continues admitted goesOn, Option.none_or] at isReturned
        refine Ensures.bind (right_exec callees rest.isEmpty admitted goesOn ready right agrees) ?_
        rintro _ ran ⟨rfl, ready', right'⟩
        exact inductionHypothesis later ready' right' (agreesRest ran) isFinal isReturned

theorem exported_function {name : String} (isExported : exported m.notes m.returned name = true) :
    ∃ fields node, exportsOf m.notes m.returned = some fields ∧
      fields (bytes name) = some node := by
  unfold exported at isExported
  cases exports : exportsOf m.notes m.returned with
  | none =>
      rw [exports] at isExported
      cases isExported
  | some fields =>
      rw [exports, Option.bind_some] at isExported
      cases found : fields (bytes name) with
      | none =>
          rw [found] at isExported
          cases isExported
      | some node => exact ⟨fields, node, rfl, found⟩

end Exports

/-- The field of the table is a function. -/
def Exports (s : State) (a : Nat) (name : String) : Prop :=
  ((s.heap.objects a).rawGet (.string (bytes name))).isFunction = true

/-- The check finds these entry points, and what it notes of them is so all along the run. -/
structure Sees (w : World) (require : Nat) (embedded provided : Text → Bool) (start : State)
    (file : List Stmt) (points : List String) : Prop where
  found : ∀ point ∈ points, exported (moduleOf provided file points).notes
    (moduleOf provided file points).returned point = true
  spares : ∀ step ∈ (run w file start).steps,
    Spares w (moduleOf provided file points) require embedded step
  agreeing : Agreeing w (moduleOf provided file points) provided Notes.empty start file

theorem exports_of_sees {w : World} {require loaded : Nat} {embedded provided : Text → Bool}
    {start : State} (callees : Callees w require embedded start)
    (loading : Loading w require loaded start) {file : List Stmt}
    (accepted : check provided file = []) {points : List String} (some_ : points ≠ [])
    (sees : Sees w require embedded provided start file points) {values : List Value}
    (returned : (run w file start).value = some values) :
    ∃ a, first values = .table a ∧ ∀ point ∈ points, Exports (run w file start).state a point := by
  obtain ⟨fine, -⟩ := List.append_eq_nil_iff.mp accepted
  have ready : Ready start start := by
    refine ⟨⟨le_refl _, ?_⟩, ?_, ?_⟩
    · intro a member
      rw [loading.building] at member
      cases member
    · intro a member
      rw [loading.made] at member
      cases member
    · rw [loading.building]
      exact List.nil_subset _
  have right : Right (moduleOf provided file points) Notes.empty start := by
    rintro name fields - ⟨⟩
  obtain ⟨point, member⟩ := List.exists_mem_of_ne_nil points some_
  obtain ⟨fields, -, exports, -⟩ := exported_function (sees.found point member)
  obtain ⟨a, isTable, contains⟩ := contains_run callees fine ready right sees.agreeing rfl rfl
    exports sees.spares values returned
  refine ⟨a, isTable, fun point member => ?_⟩
  obtain ⟨fields', node, exports', found⟩ := exported_function (sees.found point member)
  rw [exports] at exports'
  cases exports'
  exact contains _ node found ⟨⟨point, member, rfl⟩, fields, exports, found⟩

theorem callees_bareWorld (embedded : Text → Bool) : Callees bareWorld 3 embedded bareStart := by
  -- `require` writes to `package.loaded`, if it does anything
  have cases_ (f : Value) (args : List Value) (s : State) : (bareWorld.call f args s).1 = s ∨
      ∃ name, (bareWorld.call f args s).1
        = { s with heap := s.heap.put 2 (.string name) (.boolean true) } := by
    simp only [bareWorld]
    split
    · split_ifs
      · exact .inl rfl
      · exact .inr ⟨_, rfl⟩
    · exact .inl rfl
  have apart (f : Value) (args : List Value) (s : State) {a : Nat} (new : bareStart.heap.next ≤ a) :
      (bareWorld.call f args s).1.heap.objects a = s.heap.objects a := by
    rcases cases_ f args s with same | ⟨name, same⟩
    · rw [same]
    · rw [same]
      apply Heap.objects_put_of_ne
      have : 4 ≤ a := new
      omega
  constructor
  · intro f args s
    rcases cases_ f args s with same | ⟨name, same⟩ <;> rw [same]
    exact le_refl _
  · intro f args s
    rcases cases_ f args s with same | ⟨name, same⟩ <;> rw [same]
  · intro f args s
    rcases cases_ f args s with same | ⟨name, same⟩ <;> rw [same]
  · intro f args s a _ new
    exact apart f args s new
  · intro f args _ s
    rcases cases_ f args s with same | ⟨name, same⟩ <;> rw [same]
  · intro f args _ s a _ new
    exact apart f args s new

theorem sees_plainFile :
    Sees bareWorld 3 (fun _ => true) (fun _ => true) bareStart plainFile ["argv"] := by
  refine ⟨by decide, ?_, ?_⟩
  · have steps : (run bareWorld plainFile bareStart).steps
        = [(_, .index _ _), (_, .call _ _), (_, .assign _ _ _)] := rfl
    rw [steps, List.forall_mem_cons, List.forall_mem_cons, List.forall_mem_singleton]
    refine ⟨?_, ?_, ?_⟩
    · intro f args called
      cases called
    · intro f args called
      cases List.mem_singleton.mp called
      exact .inl ⟨rfl, _, _, rfl, rfl⟩
    · intro f args called
      cases List.mem_singleton.mp called
  · refine ⟨⟨?_, ?_⟩, fun _ => ⟨⟨?_, ?_⟩, fun _ => ⟨?_, fun _ => ⟨trivial, fun _ => trivial⟩⟩⟩⟩
    · exact ⟨fun items same => Expr.noConfusion same, fun _ _ => trivial⟩
    · exact fun _ _ => ⟨fun _ noted => absurd rfl noted, trivial⟩
    · refine ⟨?_, fun _ _ => trivial⟩
      rintro items ⟨⟩ -
      refine ⟨trivial, ?_⟩
      rintro _ ⟨⟩ _ ⟨⟩
      exact .refl _ _
    · exact fun _ _ => ⟨fun _ noted => absurd rfl noted, trivial⟩
    · rintro b ⟨⟩ x ⟨⟩ _ ⟨⟩ name a fields - - - - field node - - -
      rfl

/-- The module is assigned to under another name. -/
def aliasFile : List Stmt :=
  [.local_ [bytes "M"] [.table [.pair (.string (bytes "argv")) .function]],
   .local_ [bytes "N"] [.id (bytes "M")],
   .set [.index (.id (bytes "N")) (.string (bytes "argv"))] [.number 0],
   .return_ [.id (bytes "M")]]

end Qwe.Plugin
