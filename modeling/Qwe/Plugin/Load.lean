import Qwe.Lib.ChunkRules
import Qwe.Plugin.Shape

/-!
# Loading a plugin file

A file that passes the check still runs what the check does not look at: the expression
that is returned, and all values of an assignment but the first.  What it does look at may
write to a table that is not the file's own, call a local that is named `require`, load a
module, and reach the handlers of a metatable.  Nothing else is changed or called.
-/

set_option autoImplicit false

namespace Qwe.Plugin

open Qwe.Chunk
open Qwe.Template (bytes)

/-! ## What a load may do -/

section Load
variable (w : World) (require loaded : Nat) (embedded : Text → Bool) (start : State)

/-- The built-in `require` of an embedded module. -/
def OfEmbedded (f : Value) (args : List Value) : Prop :=
  f = .function require ∧ ∃ name rest, args = .string name :: rest ∧ embedded name = true

/-- Such a function is called, or a table is written to that did not exist before. -/
def Allowed : Effect → Prop
  | .wrote a => start.heap.next ≤ a
  | .called f args => OfEmbedded require embedded f args

/-- A step that calls nothing else and leaves the tables from before as they are. -/
structure Harmless (step : State × Operation) : Prop where
  effects : ∀ effect ∈ step.2.effects w step.1, Allowed require embedded start effect
  tables : ∀ a < start.heap.next, (step.2.act w step.1).1.heap.objects a = step.1.heap.objects a

/-- `package.loaded[name]` is there. -/
def Loaded (s : State) (name : Text) : Prop :=
  ((s.heap.objects loaded).rawGet (.string name)).truthy = true

/-- The built-in `require`: it only looks up a module that is loaded, and of an embedded one
that is not, it takes a note in `package.loaded`. -/
structure Requires : Prop where
  again : ∀ name rest s, Loaded loaded s name →
    (w.call (.function require) (.string name :: rest) s).1 = s
  anew : ∀ name rest s, embedded name = true → ¬Loaded loaded s name →
    (w.call (.function require) (.string name :: rest) s).1.heap.objects loaded ≠
      s.heap.objects loaded

/-- The state before a file is loaded. -/
structure Loading : Prop where
  locals : start.locals = fun _ => none
  made : start.made = []
  building : start.building = []
  environment : w.environment < start.heap.next
  globals : w.globals < start.heap.next
  loaded : loaded < start.heap.next
  /-- The global `require` is the built-in one. -/
  own : (start.heap.objects w.environment).rawGet (.string (bytes "require")) = .nil
  behind : (start.heap.objects w.globals).rawGet (.string (bytes "require")) = .function require

/-! ## The condition -/

/-- If there is anything to call, it is `require`, for an embedded module that is loaded. -/
def Permits (s : State) (f : Value) (args : List Value) : Prop :=
  callable s.heap f = true → f = .function require ∧
    ∃ name rest, args = .string name :: rest ∧ embedded name = true ∧ Loaded loaded s name

/-- A metatable has no handler for the operation but such a `require`. -/
def PermitsAnswer (s : State) : Answer → Prop
  | .call f args _ => Permits require loaded embedded s f args
  | _ => True

/-- A `require` that the check has seen: no local of its name stands for another function,
and the module is an embedded one that is loaded. -/
def Expects (s : State) (f : Value) (args : List Value) : Prop :=
  callable s.heap f = true →
    (∀ v, s.locals (bytes "require") = some v → v = .function require) ∧
      ∀ name, args = [.string name] → embedded name = true ∧ Loaded loaded s name

/-- The condition on a step of an expression, which the check has seen or not. -/
def Meets (seen : Bool) (step : State × Operation) : Prop :=
  match step.2 with
  | .index v k => PermitsAnswer require loaded embedded step.1 (index w step.1.heap maxDepth v k)
  | .unary op x => PermitsAnswer require loaded embedded step.1 (unary w step.1.heap op x)
  | .binary op x y => PermitsAnswer require loaded embedded step.1 (binary w step.1.heap op x y)
  -- a constructor writes to its own table
  | .assign _ _ _ => True
  | .call f args =>
      if seen then Expects require loaded embedded step.1 f args
      else Permits require loaded embedded step.1 f args

/-- The value that is assigned to leads to a table that did not exist before, or nowhere. -/
def Targets (s : State) (v k x : Value) : Prop :=
  match store w s.heap maxDepth v k with
  | .write a => start.heap.next ≤ a
  | .raised => True
  | .call f => Permits require loaded embedded s f [v, k, x]

/-- The condition on a statement, in the state before it. -/
def Heeds (s : State) : Stmt → Prop
  | .local_ _ values =>
      ∀ step ∈ (evalAll w values s).steps, Meets w require loaded embedded true step
  -- only the first of the values is looked at
  | .set [.index base key] (value :: more) =>
      (eval w base s).Along (Meets w require loaded embedded true) fun b s1 =>
        (eval w key s1).Along (Meets w require loaded embedded true) fun k s2 =>
          (eval w value s2).Along (Meets w require loaded embedded true) fun x s3 =>
            (evalAll w more s3).Along (Meets w require loaded embedded false) fun _ s4 =>
              Targets w require loaded embedded start s4 (first b) (first k) (first x)
  | .return_ values =>
      ∀ step ∈ (evalAll w values s).steps, Meets w require loaded embedded false step
  | _ => True

/-- Each statement that the run comes to meets the condition. -/
def Heeding (s : State) : List Stmt → Prop
  | [] => True
  | stmt :: rest => Heeds w require loaded embedded start s stmt ∧
      ((exec w stmt s).value = some none → Heeding (exec w stmt s).state rest)

/-! ## What holds all along -/

/-- The tables from before are as they were. -/
structure Untouched (s : State) : Prop extends Fresh start.heap.next s where
  old : ∀ a < start.heap.next, s.heap.objects a = start.heap.objects a

variable {w require loaded embedded start} {provided : Text → Bool}

theorem Untouched.put {s : State} (untouched : Untouched start s) {a : Nat}
    (new : start.heap.next ≤ a) (k x : Value) :
    Untouched start { s with heap := s.heap.put a k x } := by
  refine ⟨untouched.toFresh.put a k x, fun b before => ?_⟩
  dsimp only
  rw [Heap.objects_put_of_ne _ (by omega)]
  exact untouched.old b before

theorem Untouched.newTable {s : State} (untouched : Untouched start s) :
    Untouched start (newTable s).state := by
  refine ⟨untouched.toFresh.newTable, fun a before => ?_⟩
  have grown := untouched.grown
  rw [objects_newTable_of_ne (by omega)]
  exact untouched.old a before

/-- What a harmless step, or several, lead to. -/
structure Reached (start s s' : State) : Prop where
  untouched : Untouched start s'
  building : s'.building = s.building

theorem Reached.refl {s : State} (untouched : Untouched start s) : Reached start s s :=
  ⟨untouched, rfl⟩

theorem Reached.trans {s s' s'' : State} (first : Reached start s s')
    (second : Reached start s' s'') : Reached start s s'' :=
  ⟨second.untouched, second.building.trans first.building⟩

/-! ## Calls -/

section Steps
variable (requires : Requires w require loaded embedded)
  (loading : Loading w require loaded start)
variable {s : State}

include requires loading

/-- A call is permitted exactly if it is harmless. -/
theorem permits_iff {f : Value} {args : List Value} :
    Permits require loaded embedded s f args ↔
      (∀ effect ∈ calls s.heap f args, Allowed require embedded start effect) ∧
        ∀ a < start.heap.next, (apply w f args s).1.heap.objects a = s.heap.objects a := by
  unfold Permits calls apply
  by_cases some_ : callable s.heap f = true
  · simp only [some_, forall_const, if_true, List.forall_mem_singleton, Allowed, OfEmbedded]
    constructor
    · rintro ⟨rfl, name, rest, rfl, known, there⟩
      refine ⟨⟨rfl, name, rest, rfl, known⟩, ?_⟩
      rw [requires.again name rest s there]
      exact fun _ _ => rfl
    · rintro ⟨⟨rfl, name, rest, rfl, known⟩, same⟩
      refine ⟨rfl, name, rest, rfl, known, ?_⟩
      by_contra missing
      exact requires.anew name rest s known missing (same loaded loading.loaded)
  · simp [some_]

omit loading in
theorem apply_of_permits {f : Value} {args : List Value}
    (permits : Permits require loaded embedded s f args) : (apply w f args s).1 = s := by
  unfold apply
  split
  · rename_i some_
    obtain ⟨rfl, name, rest, rfl, -, there⟩ := permits some_
    exact requires.again name rest s there
  · rfl

/-! ## Steps -/

theorem exact_answer {op : Operation} {answer : Answer} (untouched : Untouched start s)
    (effects : op.effects w s = answer.effects s.heap) (act : op.act w s = answer.act w s) :
    Exact (PermitsAnswer require loaded embedded s answer) (Harmless w require embedded start)
      (perform w op s) fun _ s' => Reached start s s' := by
  have harmless : Harmless w require embedded start (s, op) ↔
      (∀ effect ∈ answer.effects s.heap, Allowed require embedded start effect) ∧
        ∀ a < start.heap.next, (answer.act w s).1.heap.objects a = s.heap.objects a :=
    ⟨fun h => ⟨effects ▸ h.effects, act ▸ h.tables⟩, fun h => ⟨effects ▸ h.1, act ▸ h.2⟩⟩
  apply Exact.perform
  · rw [harmless]
    cases answer with
    | call f args finish => exact permits_iff requires loading
    | _ => simp [PermitsAnswer, Answer.effects, Answer.act]
  · intro permits
    rw [act]
    cases answer with
    | call f args finish =>
        rw [Answer.act]
        dsimp only
        rw [apply_of_permits requires permits]
        exact .refl untouched
    | _ => exact .refl untouched

theorem exact_call {f : Value} {args : List Value} (untouched : Untouched start s) :
    Exact (Permits require loaded embedded s f args) (Harmless w require embedded start)
      (perform w (.call f args) s) fun _ s' => Reached start s s' := by
  apply Exact.perform
  · rw [permits_iff requires loading]
    exact ⟨fun h => ⟨h.1, h.2⟩, fun h => ⟨h.effects, h.tables⟩⟩
  · intro permits
    rw [Operation.act, apply_of_permits requires permits]
    exact .refl untouched

/-- The assignment that a statement makes. -/
theorem exact_assign {v k x : Value} (untouched : Untouched start s) :
    Exact (Targets w require loaded embedded start s v k x) (Harmless w require embedded start)
      (perform w (.assign v k x) s) fun _ s' => Reached start s s' := by
  have harmless : Harmless w require embedded start (s, .assign v k x) ↔
      (∀ effect ∈ Operation.effects w s (.assign v k x), Allowed require embedded start effect) ∧
        ∀ a < start.heap.next,
          (Operation.act w s (.assign v k x)).1.heap.objects a = s.heap.objects a :=
    ⟨fun h => ⟨h.effects, h.tables⟩, fun h => ⟨h.1, h.2⟩⟩
  apply Exact.perform
  · rw [harmless, Targets, Operation.effects, Operation.act]
    cases store w s.heap maxDepth v k with
    | write b =>
        simp only [List.forall_mem_singleton, Allowed]
        refine ⟨fun new => ⟨new, fun a before => Heap.objects_put_of_ne _ (by omega) _ _⟩,
          fun h => h.1⟩
    | raised => simp
    | call f => exact permits_iff requires loading
  · intro targets
    rw [Targets] at targets
    rw [Operation.act]
    generalize store w s.heap maxDepth v k = target at targets ⊢
    cases target with
    | write b => exact ⟨untouched.put targets k x, rfl⟩
    | raised => exact .refl untouched
    | call f =>
        dsimp only
        rw [apply_of_permits requires targets]
        exact .refl untouched

end Steps

/-! ## Expressions -/

theorem inert_call {f : Expr} {args : List Expr} (isInert : inert provided (.call f args) = true) :
    ∃ name, f = .id (bytes "require") ∧ args = [.string name] := by
  cases f
  case id called =>
    rcases args with _ | ⟨arg, _ | ⟨more, rest⟩⟩
    · cases isInert
    · cases arg
      case string name =>
        rw [inert, Bool.and_eq_true, decide_eq_true_eq] at isInert
        exact ⟨name, by rw [isInert.1], rfl⟩
      all_goals cases isInert
    · cases arg <;> cases isInert
  all_goals cases isInert

theorem all_of_inertItems {items : List Item} (areInert : inertItems provided items = true) :
    ∀ item ∈ items, item.All fun e => inert provided e = true := by
  induction items with
  | nil => exact fun item member => absurd member List.not_mem_nil
  | cons head rest inductionHypothesis =>
      intro item member
      cases head with
      | pair key value =>
          simp only [inertItems, Bool.and_eq_true] at areInert
          rcases List.mem_cons.mp member with rfl | later
          · exact areInert.1
          · exact inductionHypothesis areInert.2 item later
      | item value =>
          simp only [inertItems, Bool.and_eq_true] at areInert
          rcases List.mem_cons.mp member with rfl | later
          · exact areInert.1
          · exact inductionHypothesis areInert.2 item later

section Expressions
variable {s : State}

/-- An item is written to the table that is being built. -/
theorem exact_item (untouched : Untouched start s) {a : Nat} (inside : a ∈ s.building)
    (k x : Value) :
    Exact True (Harmless w require embedded start) (perform w (.assign (.table a) k x) s)
      fun _ s' => Reached start s s' := by
  obtain ⟨new, -, plain⟩ := untouched.building a inside
  refine Exact.perform (iff_of_true trivial ?_) fun _ => ?_
  · rcases store_plain w plain k with write | raised
    · constructor
      · intro effect member
        rw [Operation.effects, write] at member
        rw [List.mem_singleton.mp member]
        exact new
      · intro b before
        rw [Operation.act, write]
        exact Heap.objects_put_of_ne _ (by omega) _ _
    · constructor
      · intro effect member
        rw [Operation.effects, raised] at member
        cases member
      · intro b _
        rw [Operation.act, raised]
  · rcases store_plain w plain k with write | raised
    · rw [Operation.act, write]
      exact ⟨untouched.put new k x, rfl⟩
    · rw [Operation.act, raised]
      exact .refl untouched

theorem reached_newFunction (untouched : Untouched start s) :
    Reached start s (newFunction s).state :=
  ⟨⟨untouched.toFresh.newFunction, untouched.old⟩, rfl⟩

theorem reached_finish {s' : State} (filled : Reached start (newTable s).state s') :
    Reached start s (finish s') := by
  refine ⟨⟨filled.untouched.toFresh.finish, filled.untouched.old⟩, ?_⟩
  rw [finish, filled.building]
  rfl

theorem exact_of_leads {condition goal : State × Operation → Prop} {α : Type} {r : Result α}
    (leads : Leads condition goal (Reached start) (Untouched start) s r) :
    Exact (∀ step ∈ r.steps, condition step) goal r fun _ s' => Untouched start s' := by
  refine Exact.mono leads fun value s' reached => ?_
  cases value with
  | none => exact reached
  | some x => exact reached.untouched

variable (requires : Requires w require loaded embedded)
  (loading : Loading w require loaded start)

include requires loading

theorem passage_load (seen : Bool) :
    Passage w (Meets w require loaded embedded seen) (Harmless w require embedded start)
      (fun _ => Reached start) (Untouched start) where
  trans := Reached.trans
  weaken := id
  passed reached := .refl reached.untouched
  building := Reached.building
  ended := Reached.untouched
  access := by
    intro s op good noAssign noCall
    cases op with
    | assign v k x => exact absurd rfl (noAssign v k x)
    | call f args => exact absurd rfl (noCall f args)
    | _ =>
        exact Leads.perform Iff.rfl (exact_answer requires loading good.untouched rfl rfl)
          fun _ => Reached.untouched
  function good := reached_newFunction good.untouched
  table good := .refl good.untouched.newTable
  item good inside k x :=
    Leads.perform (Iff.rfl : True ↔ True) (exact_item good.untouched inside k x)
      fun _ => Reached.untouched
  finish _ filled := reached_finish filled

omit requires in
/-- The name `require` stands for the built-in function, where no local has it. -/
theorem readName_require (untouched : Untouched start s) {values : List Value}
    (ran : (readName w (bytes "require") s).value = some values) :
    (readName w (bytes "require") s).state = s ∧
      (s.locals (bytes "require") = some (first values) ∨
        s.locals (bytes "require") = none ∧ first values = .function require) := by
  have value : index w s.heap maxDepth (.table w.environment) (.string (bytes "require"))
      = .value (.function require) := by
    rw [maxDepth, index, untouched.old _ loading.environment, loading.own, if_neg (by simp),
      if_pos rfl, untouched.old _ loading.globals, loading.behind]
  cases found : s.locals (bytes "require") with
  | some v =>
      rw [readName_local w found] at ran ⊢
      cases ran
      exact ⟨rfl, .inl rfl⟩
  | none =>
      rw [readName_global w found, perform, Operation.act, value] at ran ⊢
      cases ran
      exact ⟨rfl, .inr ⟨rfl, rfl⟩⟩

/-- A call of `require` that the check has seen. -/
theorem exact_require (untouched : Untouched start s) {f : Value} {name : Text}
    (from_ : s.locals (bytes "require") = some f ∨
      s.locals (bytes "require") = none ∧ f = .function require) :
    Exact (Expects require loaded embedded s f [.string name]) (Harmless w require embedded start)
      (perform w (.call f [.string name]) s) fun _ s' => Reached start s s' := by
  apply (exact_call requires loading untouched).congr
  unfold Expects Permits
  refine forall_congr' fun _ => ?_
  constructor
  · rintro ⟨own, ofModule⟩
    obtain ⟨known, there⟩ := ofModule name rfl
    refine ⟨?_, name, [], rfl, known, there⟩
    rcases from_ with isLocal | ⟨-, same⟩
    · exact own f isLocal
    · exact same
  · rintro ⟨same, other, rest, ⟨⟩, known, there⟩
    refine ⟨fun v isLocal => ?_, ?_⟩
    · rcases from_ with own | ⟨missing, -⟩
      · rw [own] at isLocal
        cases isLocal
        exact same
      · rw [missing] at isLocal
        cases isLocal
    · rintro _ ⟨⟩
      exact ⟨known, there⟩

/-- What is seen is inert; the rest is any expression at all. -/
theorem admits_load (provided : Text → Bool) (seen : Bool) :
    Admits w (Meets w require loaded embedded seen) (Harmless w require embedded start)
      (fun _ => Reached start) (Untouched start)
      fun e => seen = true → inert provided e = true where
  paren ok is := by simpa only [inert] using ok is
  unary ok is := by simpa only [inert] using ok is
  index ok := by
    simp only [inert, Bool.and_eq_true] at ok
    exact ⟨fun is => (ok is).1, fun is => (ok is).2⟩
  binary ok := by
    simp only [inert, Bool.and_eq_true] at ok
    exact ⟨fun is => (ok is).1, fun is => (ok is).2⟩
  table ok := by
    intro item member
    rw [inert] at ok
    have all is := all_of_inertItems (ok is) item member
    cases item with
    | pair key value => exact ⟨fun is => (all is).1, fun is => (all is).2⟩
    | item value => exact all
  call ok := by
    refine ⟨fun is => ?_, fun e member is => ?_⟩
    · obtain ⟨name, rfl, rfl⟩ := inert_call (ok is)
      rfl
    · obtain ⟨name, rfl, rfl⟩ := inert_call (ok is)
      rw [List.mem_singleton.mp member]
      rfl
  invoke ok := by
    refine ⟨fun is => ?_, fun e member is => ?_⟩
    · cases ok is
    · cases ok is
  called := by
    intro f args s x xs ok good ofCallee ofArgs reached
    cases seen with
    | false =>
        exact Leads.perform Iff.rfl (exact_call requires loading reached.untouched)
          fun _ => Reached.untouched
    | true =>
        obtain ⟨name, rfl, rfl⟩ := inert_call (ok rfl)
        have callee : eval w (.id (bytes "require")) = readName w (bytes "require") := by rw [eval]
        have args : evalAll w [.string name] = pure [.string name] := by rw [evalAll, eval]
        rw [callee] at ofCallee
        obtain ⟨same, from_⟩ := readName_require loading good.untouched ofCallee
        rw [callee, args, same] at ofArgs ⊢
        cases ofArgs
        exact Leads.perform Iff.rfl (exact_require requires loading good.untouched from_)
          fun _ => Reached.untouched
  invoked := by
    intro object method args ok s good f xs
    cases seen with
    | false =>
        exact Leads.perform Iff.rfl (exact_call requires loading good.untouched)
          fun _ => Reached.untouched
    | true => cases ok rfl

/-- An expression of a statement. -/
theorem exact_eval (seen : Bool) {e : Expr} (admitted : seen = true → inert provided e = true)
    (untouched : Untouched start s) :
    Exact (∀ step ∈ (eval w e s).steps, Meets w require loaded embedded seen step)
      (Harmless w require embedded start) (eval w e s) fun _ s' => Untouched start s' :=
  exact_of_leads ((passage_load requires loading seen).leads_eval
    (admits_load requires loading provided seen) e s admitted (.refl untouched))

theorem exact_evalAll (seen : Bool) {values : List Expr}
    (admitted : ∀ e ∈ values, seen = true → inert provided e = true)
    (untouched : Untouched start s) :
    Exact (∀ step ∈ (evalAll w values s).steps, Meets w require loaded embedded seen step)
      (Harmless w require embedded start) (evalAll w values s) fun _ s' => Untouched start s' :=
  exact_of_leads ((passage_load requires loading seen).leads_evalAll
    (admits_load requires loading provided seen) values s admitted (.refl untouched))

end Expressions

/-! ## Statements -/

/-- What the check has made sure of. -/
def Admitted (provided : Text → Bool) : Stmt → Prop
  | .local_ _ values => ∀ e ∈ values, inert provided e = true
  | .localrec _ => True
  | .set targets values => ∃ table field value more,
      targets = [.index (.id table) (.string field)] ∧ values = value :: more ∧
        inert provided value = true
  | .return_ values => ∃ value, values = [value]
  | .other _ => False

theorem inert_of_walkValues {values : List Expr} {notes : Notes} {names : List Text}
    (fine : (walkValues provided notes names values).2 = []) :
    ∀ e ∈ values, inert provided e = true := by
  induction values generalizing notes names with
  | nil => exact fun e member => absurd member List.not_mem_nil
  | cons value rest inductionHypothesis =>
      by_cases isInert : inert provided value = true
      · intro e member
        rcases List.mem_cons.mp member with rfl | later
        · exact isInert
        · cases names with
          | nil =>
              rw [walkValues, if_pos isInert] at fine
              exact inductionHypothesis fine e later
          | cons name names =>
              rw [walkValues, if_pos isInert] at fine
              exact inductionHypothesis fine e later
      · simp [walkValues, isInert] at fine

theorem targets_of_walkStmt {last : Bool} {notes : Notes} {targets values : List Expr}
    (fine : (walkStmt provided last notes (.set targets values)).2.1 = []) :
    ∃ table field value more, targets = [.index (.id table) (.string field)] ∧
      values = value :: more := by
  rcases targets with _ | ⟨target, _ | ⟨second, others⟩⟩
  · cases fine
  · cases target
    case index base key =>
      cases base
      case id table =>
        cases key
        case string field =>
          cases values with
          | nil => cases fine
          | cons value more => exact ⟨table, field, value, more, rfl, rfl⟩
        all_goals cases fine
      all_goals cases fine
    all_goals cases fine
  · simp [walkStmt] at fine

theorem admitted_of_walkStmt {last : Bool} {notes : Notes} {stmt : Stmt}
    (fine : (walkStmt provided last notes stmt).2.1 = []) : Admitted provided stmt := by
  cases stmt with
  | local_ names values => exact inert_of_walkValues fine
  | localrec name => trivial
  | set targets values =>
      obtain ⟨table, field, value, more, rfl, rfl⟩ := targets_of_walkStmt fine
      rw [walkStmt] at fine
      split_ifs at fine with isInert
      · exact ⟨table, field, value, more, rfl, rfl, isInert⟩
  | return_ values =>
      rcases values with _ | ⟨value, _ | ⟨next, rest⟩⟩
      · cases last <;> cases fine
      · exact ⟨value, rfl⟩
      · cases last <;> cases fine
  | other tag => cases fine

theorem admitted_of_walk {file : List Stmt} {notes : Notes}
    (fine : (walk provided notes file).2.1 = []) : ∀ stmt ∈ file, Admitted provided stmt := by
  induction file generalizing notes with
  | nil => exact fun stmt member => absurd member List.not_mem_nil
  | cons stmt rest inductionHypothesis =>
      rw [walk] at fine
      obtain ⟨here, later⟩ := List.append_eq_nil_iff.mp fine
      intro other member
      rcases List.mem_cons.mp member with rfl | behind
      · exact admitted_of_walkStmt here
      · exact inductionHypothesis later other behind

theorem untouched_declare {s : State} (untouched : Untouched start s) (names : List Text)
    (values : List Value) : Untouched start (declare s names values) := by
  refine ⟨untouched.toFresh.declare names values, ?_⟩
  rw [(declare_rest names values s).1]
  exact untouched.old

section Files
variable (requires : Requires w require loaded embedded)
  (loading : Loading w require loaded start)

include requires loading

/-- A statement. -/
theorem exact_exec {stmt : Stmt} (admitted : Admitted provided stmt) {s : State}
    (untouched : Untouched start s) :
    Exact (Heeds w require loaded embedded start s stmt) (Harmless w require embedded start)
      (exec w stmt s) fun _ s' => Untouched start s' := by
  cases stmt with
  | local_ names values =>
      rw [exec]
      have seen : ∀ e ∈ values, true = true → inert provided e = true :=
        fun e member _ => admitted e member
      exact Exact.bind_silent (exact_evalAll requires loading true seen untouched) (fun _ _ => rfl)
        (fun xs reached => untouched_declare reached names xs) id
  | localrec name =>
      rw [exec]
      exact Exact.silent trivial rfl
        (untouched_declare (reached_newFunction untouched).untouched [name] _)
  | set targets values =>
      obtain ⟨table, field, value, more, rfl, rfl, isInert⟩ := admitted
      have base : inert provided (.id table) = true := rfl
      have key : inert provided (.string field) = true := rfl
      have unseen : ∀ e ∈ more, false = true → inert provided e = true := by simp
      rw [exec_set]
      apply Exact.bind (exact_eval requires loading true (fun _ => base) untouched) _ id
      intro b _ first
      apply Exact.bind (exact_eval requires loading true (fun _ => key) first) _ id
      intro k _ second
      apply Exact.bind (exact_eval requires loading true (fun _ => isInert) second) _ id
      intro x _ third
      apply Exact.bind (exact_evalAll requires loading false unseen third) _ id
      intro _ _ fourth
      exact Exact.bind_silent (exact_assign requires loading fourth) (fun _ _ => rfl)
        (fun _ => Reached.untouched) Reached.untouched
  | return_ values =>
      have unseen : ∀ e ∈ values, false = true → inert provided e = true := by simp
      rw [exec]
      exact Exact.bind_silent (exact_evalAll requires loading false unseen untouched)
        (fun _ _ => rfl) (fun _ => id) id
  | other tag => cases admitted

/-- A file, from some statement on. -/
theorem exact_run {file : List Stmt} (admitted : ∀ stmt ∈ file, Admitted provided stmt) {s : State}
    (untouched : Untouched start s) :
    Exact (Heeding w require loaded embedded start s file) (Harmless w require embedded start)
      (run w file s) fun _ s' => Untouched start s' := by
  induction file generalizing s with
  | nil =>
      rw [run]
      exact Exact.silent trivial rfl untouched
  | cons stmt rest inductionHypothesis =>
      have here := exact_exec requires loading (admitted stmt List.mem_cons_self) untouched
      have through : Exact
          (Heeds w require loaded embedded start s stmt ∧
            (exec w stmt s).Then fun returned s' =>
              returned = none → Heeding w require loaded embedded start s' rest)
          (Harmless w require embedded start) (run w (stmt :: rest) s)
          fun _ s' => Untouched start s' := by
        rw [run]
        refine Exact.bind here (fun returned _ behind => ?_) id
        cases returned with
        | some values => exact Exact.silent (fun same => by cases same) rfl behind
        | none =>
            exact Exact.congr (inductionHypothesis
              (fun next member => admitted next (List.mem_cons_of_mem _ member)) behind) (by simp)
      apply through.congr
      rw [Heeding, Result.Then]
      exact and_congr_right fun _ => ⟨fun goesOn x ran same => goesOn (same ▸ ran),
        fun goesOn ran => goesOn none ran rfl⟩

end Files

end Load

/-- A world in which `require` is all there is; the module of each name is `true`. -/
def bareWorld : World where
  environment := 0
  globals := 1
  arith := fun _ a _ => a
  negate := id
  less := fun _ _ => false
  lessEq := fun _ _ => false
  text := fun _ => []
  number := fun _ => none
  ofNat := fun n => n.toUInt64
  border := fun _ => 0
  call := fun f args s =>
    match f, args with
    | .function 3, .string name :: _ =>
        if ((s.heap.objects 2).rawGet (.string name)).truthy then
          (s, some [(s.heap.objects 2).rawGet (.string name)])
        else
          ({ s with heap := s.heap.put 2 (.string name) (.boolean true) }, some [.boolean true])
    | _, _ => (s, some [])
  statement := fun _ s => (s, some none)

/-- The module `qwe.exec` has been loaded. -/
def bareStart : State where
  locals := fun _ => none
  heap :=
    { objects := fun a => ⟨fun k =>
        if a = 1 ∧ k = .string (bytes "require") then .function 3
        else if a = 2 ∧ k = .string (bytes "qwe.exec") then .boolean true
        else .nil, none⟩
      others := fun _ => none
      next := 4 }
  made := []
  building := []

theorem requires_bareWorld (embedded : Text → Bool) : Requires bareWorld 3 2 embedded := by
  constructor
  · intro name rest s there
    unfold Loaded at there
    simp only [bareWorld, there, if_true]
  · intro name rest s _ missing same
    have absent := missing
    unfold Loaded at absent
    simp only [bareWorld, if_neg absent] at same
    apply missing
    rw [Loaded, ← same, Heap.objects_put_self, Object.rawGet_rawSet_self _ rfl]
    rfl

theorem loading_bareStart : Loading bareWorld 3 2 bareStart :=
  ⟨rfl, rfl, rfl, by decide, by decide, by decide, rfl, rfl⟩

/-- A module table with one function, and an embedded module. -/
def plainFile : List Stmt :=
  [.local_ [bytes "q"] [.call (.id (bytes "require")) [.string (bytes "qwe.exec")]],
   .local_ [bytes "M"] [.table []],
   .set [.index (.id (bytes "M")) (.string (bytes "argv"))] [.function],
   .return_ [.id (bytes "M")]]

theorem heeding_plainFile :
    Heeding bareWorld 3 2 (fun _ => true) bareStart bareStart plainFile := by
  refine ⟨?_, fun _ => ⟨?_, fun _ => ⟨?_, fun _ => ⟨?_, fun _ => trivial⟩⟩⟩⟩
  · -- `require` is read and called
    have steps : (evalAll bareWorld [.call (.id (bytes "require")) [.string (bytes "qwe.exec")]]
        bareStart).steps = [_, _] := rfl
    rw [Heeds, steps, List.forall_mem_cons, List.forall_mem_singleton]
    refine ⟨trivial, fun _ => ⟨?_, ?_⟩⟩
    · rintro v ⟨⟩
    · rintro name ⟨⟩
      have there : ((bareStart.heap.objects 2).rawGet (.string (bytes "qwe.exec"))).truthy
          = true := rfl
      exact ⟨rfl, there⟩
  · exact List.forall_mem_nil _
  · refine ⟨List.forall_mem_nil _, ?_⟩
    rintro b ⟨⟩
    refine ⟨List.forall_mem_nil _, ?_⟩
    rintro k ⟨⟩
    refine ⟨List.forall_mem_nil _, ?_⟩
    rintro x ⟨⟩
    refine ⟨List.forall_mem_nil _, ?_⟩
    rintro _ ⟨⟩
    exact (by decide : 4 ≤ 4)
  · exact List.forall_mem_nil _

/-- A function is called for an item of the table that is returned. -/
def callingFile : List Stmt :=
  [.return_ [.table [.pair (.string (bytes "argv")) .function,
    .pair (.string (bytes "x")) (.call (.paren .function) [])]]]

end Qwe.Plugin
