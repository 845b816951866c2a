import Qwe.Lib.Chunk

/-!
# Rules for the top level of a Lua file

Triples for evaluations, conditions that are exact, and a rule for all expressions.
-/

set_option autoImplicit false

namespace Qwe.Chunk

section Rules
variable {α β : Type}

/-- What comes behind a result, if no error was raised. -/
def Result.Then (r : Result α) (next : α → State → Prop) : Prop :=
  ∀ x, r.value = some x → next x r.state

/-- Every step meets the condition, and then comes the next. -/
def Result.Along (condition : State × Operation → Prop) (r : Result α) (next : α → State → Prop) :
    Prop :=
  (∀ step ∈ r.steps, condition step) ∧ r.Then next

variable {m : Eval α} {f : α → Eval β} {s : State}

theorem then_bind {next : β → State → Prop} :
    ((m >>= f) s).Then next ↔ (m s).Then fun x s' => (f x s').Then next := by
  change (∀ y, (Eval.bind m f s).value = some y → next y (Eval.bind m f s).state) ↔ _
  unfold Eval.bind
  unfold Result.Then
  cases value : (m s).value with
  | none => simp
  | some x => simp

theorem forall_bind {condition : State × Operation → Prop} :
    (∀ step ∈ ((m >>= f) s).steps, condition step) ↔
      (m s).Along condition fun x s' => ∀ step ∈ (f x s').steps, condition step := by
  change (∀ step ∈ (Eval.bind m f s).steps, condition step) ↔ _ ∧ (∀ y, _ → _)
  unfold Eval.bind
  cases value : (m s).value with
  | none => simp
  | some x => simp [or_imp, forall_and]

/-! ## Triples

If every step meets the assumption and no error is raised, the value and the state are as
the postcondition says. -/

def Ensures (assumption : State × Operation → Prop) (r : Result α) (post : α → State → Prop) :
    Prop :=
  (∀ step ∈ r.steps, assumption step) → r.Then post

variable {assumption : State × Operation → Prop}

theorem Ensures.pure {x : α} {post : α → State → Prop} (holds : post x s) :
    Ensures assumption ((Pure.pure x : Eval α) s) post := by
  rintro _ _ ⟨⟩
  exact holds

theorem Ensures.bind {q : α → State → Prop} {post : β → State → Prop}
    (first : Ensures assumption (m s) q)
    (second : ∀ x, (m s).value = some x → q x (m s).state →
      Ensures assumption (f x (m s).state) post) :
    Ensures assumption ((m >>= f) s) post := by
  intro steps
  obtain ⟨before, behind⟩ := forall_bind.mp steps
  refine then_bind.mpr fun x ran => ?_
  exact second x ran (first before x ran) (behind x ran)

theorem Ensures.mono {r : Result α} {mid post : α → State → Prop}
    (holds : Ensures assumption r mid) (weaken : ∀ x, r.value = some x → mid x r.state →
      post x r.state) : Ensures assumption r post :=
  fun steps x ran => weaken x ran (holds steps x ran)

theorem Ensures.perform {w : World} {op : Operation} {post : List Value → State → Prop}
    (step : assumption (s, op) → ∀ values, (op.act w s).2 = some values →
      post values (op.act w s).1) :
    Ensures assumption (Chunk.perform w op s) post :=
  fun steps values ran => step (steps _ (List.mem_singleton.mpr rfl)) values ran

/-! ## Exact conditions

The condition holds exactly if every step reaches the goal, and then the value, none if an
error was raised, and the state are as the postcondition says. -/

structure Exact (condition : Prop) (goal : State × Operation → Prop) (r : Result α)
    (post : Option α → State → Prop) : Prop where
  iff : condition ↔ ∀ step ∈ r.steps, goal step
  post : condition → post r.value r.state

variable {condition : Prop} {goal : State × Operation → Prop}

theorem Exact.silent {r : Result α} {post : Option α → State → Prop} (holds : condition)
    (nothing : r.steps = []) (final : post r.value r.state) : Exact condition goal r post := by
  refine ⟨⟨fun _ => ?_, fun _ => holds⟩, fun _ => final⟩
  rw [nothing]
  exact List.forall_mem_nil _

theorem Exact.congr {other : Prop} {r : Result α} {post : Option α → State → Prop}
    (exact_ : Exact condition goal r post) (same : other ↔ condition) : Exact other goal r post :=
  ⟨same.trans exact_.iff, fun holds => exact_.post (same.mp holds)⟩

theorem Exact.mono {r : Result α} {mid post : Option α → State → Prop}
    (exact_ : Exact condition goal r mid) (weaken : ∀ x s, mid x s → post x s) :
    Exact condition goal r post :=
  ⟨exact_.iff, fun holds => weaken _ _ (exact_.post holds)⟩

theorem Exact.bind {q : Option α → State → Prop} {next : α → State → Prop}
    {post : Option β → State → Prop} (first : Exact condition goal (m s) q)
    (second : ∀ x, (m s).value = some x → q (some x) (m s).state →
      Exact (next x (m s).state) goal (f x (m s).state) post)
    (raised : q none (m s).state → post none (m s).state) :
    Exact (condition ∧ (m s).Then next) goal ((m >>= f) s) post := by
  constructor
  · rw [forall_bind]
    refine ⟨fun ⟨holds, behind⟩ => ⟨first.iff.mp holds, fun x ran => ?_⟩,
      fun ⟨reached, behind⟩ => ⟨first.iff.mpr reached, fun x ran => ?_⟩⟩
    · exact (second x ran (ran ▸ first.post holds)).iff.mp (behind x ran)
    · exact (second x ran (ran ▸ first.post (first.iff.mpr reached))).iff.mpr (behind x ran)
  · rintro ⟨holds, behind⟩
    have middle := first.post holds
    change post (Eval.bind m f s).value (Eval.bind m f s).state
    unfold Eval.bind
    cases ran : (m s).value with
    | none =>
        rw [ran] at middle
        exact raised middle
    | some x =>
        rw [ran] at middle
        exact (second x ran middle).post (behind x ran)

/-- What comes behind concerns nothing. -/
theorem Exact.bind_silent {q : Option α → State → Prop} {post : Option β → State → Prop}
    (first : Exact condition goal (m s) q)
    (nothing : ∀ x, (m s).value = some x → (f x (m s).state).steps = [])
    (final : ∀ x, q (some x) (m s).state → post (f x (m s).state).value (f x (m s).state).state)
    (raised : q none (m s).state → post none (m s).state) :
    Exact condition goal ((m >>= f) s) post := by
  have through : Exact (condition ∧ (m s).Then fun _ _ => True) goal ((m >>= f) s) post := by
    apply Exact.bind first _ raised
    intro x ran holds
    exact Exact.silent trivial (nothing x ran) (final x holds)
  exact through.congr (by simp [Result.Then])

theorem Exact.perform {w : World} {op : Operation} {post : Option (List Value) → State → Prop}
    (step : condition ↔ goal (s, op)) (final : condition → post (op.act w s).2 (op.act w s).1) :
    Exact condition goal (Chunk.perform w op s) post :=
  ⟨by rw [step]; exact (List.forall_mem_singleton ..).symm, final⟩

/-! ## New tables -/

theorem objects_newTable_of_ne {a : Nat} (other : a ≠ s.heap.next) :
    (newTable s).state.heap.objects a = s.heap.objects a :=
  Function.update_of_ne other ..

/-- The tables that are being built are not among the first, and have no metatable. -/
structure Fresh (first : Nat) (s : State) : Prop where
  grown : first ≤ s.heap.next
  building : ∀ a ∈ s.building,
    first ≤ a ∧ a < s.heap.next ∧ (s.heap.objects a).metatable = none

section Fresh
variable {first : Nat}

theorem Fresh.put (fresh : Fresh first s) (a : Nat) (k x : Value) :
    Fresh first { s with heap := s.heap.put a k x } := by
  refine ⟨fresh.grown, fun b member => ?_⟩
  dsimp only
  rw [Heap.metatable_put]
  exact fresh.building b member

theorem Fresh.newFunction (fresh : Fresh first s) : Fresh first (newFunction s).state := by
  refine ⟨Nat.le_succ_of_le fresh.grown, fun a member => ?_⟩
  obtain ⟨newer, below, plain⟩ := fresh.building a member
  exact ⟨newer, Nat.lt_succ_of_lt below, plain⟩

theorem Fresh.newTable (fresh : Fresh first s) : Fresh first (newTable s).state := by
  refine ⟨Nat.le_succ_of_le fresh.grown, fun a member => ?_⟩
  rcases List.mem_cons.mp member with rfl | earlier
  · refine ⟨fresh.grown, Nat.lt_succ_self _, ?_⟩
    have empty : (Chunk.newTable s).state.heap.objects s.heap.next = Object.empty :=
      Function.update_self ..
    rw [empty]
    rfl
  · obtain ⟨newer, below, plain⟩ := fresh.building a earlier
    refine ⟨newer, Nat.lt_succ_of_lt below, ?_⟩
    rw [objects_newTable_of_ne (by omega)]
    exact plain

theorem Fresh.finish (fresh : Fresh first s) : Fresh first (finish s) :=
  ⟨fresh.grown, fun a member => fresh.building a (List.mem_of_mem_tail member)⟩

theorem declare_rest (names : List Text) (values : List Value) (s : State) :
    (declare s names values).heap = s.heap ∧ (declare s names values).made = s.made ∧
      (declare s names values).building = s.building := by
  induction names generalizing s values with
  | nil => exact ⟨rfl, rfl, rfl⟩
  | cons head names inductionHypothesis =>
      rw [declare]
      exact inductionHypothesis _ _

theorem Fresh.declare (fresh : Fresh first s) (names : List Text)
    (values : List Value) : Fresh first (declare s names values) := by
  obtain ⟨sameHeap, -, sameBuilding⟩ := declare_rest names values s
  refine ⟨?_, ?_⟩
  · rw [sameHeap]
    exact fresh.grown
  · rw [sameHeap, sameBuilding]
    exact fresh.building

end Fresh

/-! ## Expressions

What is shown of every expression: its steps meet the condition exactly if they reach the
goal, and they lead from one state on to another, or to an error.  The states that are
passed through are those that lead to themselves; one table may be excepted, which is being
built. -/

def Leads (condition goal : State × Operation → Prop) (onward : State → State → Prop)
    (raised : State → Prop) (s : State) (r : Result α) : Prop :=
  Exact (∀ step ∈ r.steps, condition step) goal r fun value s' =>
    value.elim (raised s') fun _ => onward s s'

section Leads
variable {condition : State × Operation → Prop} {onward : State → State → Prop}
variable {raised : State → Prop}

theorem Leads.silent {x : α} {s' : State} (reached : onward s s') :
    Leads condition goal onward raised s ⟨[], s', some x⟩ :=
  Exact.silent (List.forall_mem_nil _) rfl reached

theorem Leads.perform {w : World} {op : Operation} {before : Prop}
    (same : condition (s, op) ↔ before)
    (exact_ : Exact before goal (Chunk.perform w op s) fun _ s' => onward s s')
    (ended : ∀ s', onward s s' → raised s') :
    Leads condition goal onward raised s (Chunk.perform w op s) := by
  refine Exact.congr (Exact.mono exact_ ?_) ?_
  · intro value s' reached
    cases value with
    | none => exact ended s' reached
    | some x => exact reached
  · rw [← same]
    exact List.forall_mem_singleton ..

theorem Leads.ensures {r : Result α} (leads : Leads assumption assumption onward raised s r) :
    Ensures assumption r fun _ s' => onward s s' := by
  intro steps x ran
  have reached := leads.post steps
  rw [ran] at reached
  exact reached

end Leads

end Rules

/-- The steps of an evaluation, but for its calls. -/
structure Passage (w : World) (condition goal : State × Operation → Prop)
    (onward : Option Nat → State → State → Prop) (raised : State → Prop) : Prop where
  trans : ∀ {but s s' s''}, onward but s s' → onward but s' s'' → onward but s s''
  weaken : ∀ {but s s'}, onward none s s' → onward but s s'
  passed : ∀ {but s s'}, onward but s s' → onward none s' s'
  building : ∀ {but s s'}, onward but s s' → s'.building = s.building
  ended : ∀ {but s s'}, onward but s s' → raised s'
  access : ∀ {s op}, onward none s s → (∀ v k x, op ≠ .assign v k x) →
    (∀ f args, op ≠ .call f args) → Leads condition goal (onward none) raised s (perform w op s)
  function : ∀ {s}, onward none s s → onward none s (newFunction s).state
  table : ∀ {s}, onward none s s → onward none (newTable s).state (newTable s).state
  item : ∀ {s a}, onward none s s → a ∈ s.building → ∀ k x,
    Leads condition goal (onward (some a)) raised s (perform w (.assign (.table a) k x) s)
  finish : ∀ {s s'}, onward none s s → onward (some s.heap.next) (newTable s).state s' →
    onward none s (finish s')

/-- The expressions of an item. -/
def Item.All (p : Expr → Prop) : Item → Prop
  | .pair key value => p key ∧ p value
  | .item value => p value

/-- What is asked of an expression is asked of its parts, and is enough for its calls. -/
structure Admits (w : World) (condition goal : State × Operation → Prop)
    (onward : Option Nat → State → State → Prop) (raised : State → Prop)
    (admitted : Expr → Prop) : Prop where
  paren : ∀ {e}, admitted (.paren e) → admitted e
  unary : ∀ {op e}, admitted (.unary op e) → admitted e
  index : ∀ {base key}, admitted (.index base key) → admitted base ∧ admitted key
  binary : ∀ {op left right}, admitted (.binary op left right) → admitted left ∧ admitted right
  table : ∀ {items}, admitted (.table items) → ∀ item ∈ items, item.All admitted
  call : ∀ {f args}, admitted (.call f args) → admitted f ∧ ∀ e ∈ args, admitted e
  invoke : ∀ {object method args}, admitted (.invoke object method args) →
    admitted object ∧ ∀ e ∈ args, admitted e
  called : ∀ {f args s x xs}, admitted (.call f args) → onward none s s →
    (eval w f s).value = some x →
    (evalAll w args (eval w f s).state).value = some xs →
    onward none s (evalAll w args (eval w f s).state).state →
    Leads condition goal (onward none) raised (evalAll w args (eval w f s).state).state
      (perform w (.call (first x) xs) (evalAll w args (eval w f s).state).state)
  invoked : ∀ {object method args}, admitted (.invoke object method args) → ∀ {s}, onward none s s →
    ∀ f xs, Leads condition goal (onward none) raised s (perform w (.call f xs) s)

namespace Passage
variable {w : World} {condition goal : State × Operation → Prop}
variable {onward : Option Nat → State → State → Prop} {raised : State → Prop}
variable {admitted : Expr → Prop}
variable {but : Option Nat} {s : State} {α β : Type}

theorem pure (passage : Passage w condition goal onward raised) (good : onward none s s) (x : α) :
    Leads condition goal (onward but) raised s ((Pure.pure x : Eval α) s) :=
  Leads.silent (passage.weaken good)

theorem bind (passage : Passage w condition goal onward raised) {m : Eval α} {f : α → Eval β}
    (first : Leads condition goal (onward but) raised s (m s))
    (second : ∀ x, (m s).value = some x → onward but s (m s).state →
      Leads condition goal (onward but) raised (m s).state (f x (m s).state)) :
    Leads condition goal (onward but) raised s ((m >>= f) s) := by
  refine Exact.congr (Exact.bind first (fun x ran reached => ?_) id) forall_bind
  refine Exact.mono (second x ran reached) fun value s' later => ?_
  cases value with
  | none => exact later
  | some y => exact passage.trans reached later

theorem but_of_none (passage : Passage w condition goal onward raised) {r : Result α}
    (leads : Leads condition goal (onward none) raised s r) (but : Option Nat) :
    Leads condition goal (onward but) raised s r :=
  Exact.mono leads fun value _ reached => by
    cases value with
    | none => exact reached
    | some x => exact passage.weaken reached

theorem readName (passage : Passage w condition goal onward raised) (good : onward none s s)
    (name : Text) : Leads condition goal (onward none) raised s (readName w name s) := by
  cases found : s.locals name with
  | some v =>
      rw [readName_local w found]
      exact passage.pure good [v]
  | none =>
      rw [readName_global w found]
      exact passage.access good (by simp) (by simp)

theorem storeFrom (passage : Passage w condition goal onward raised) {a : Nat} (values : List Value)
    (i : Nat) (good : onward none s s) (inside : a ∈ s.building) :
    Leads condition goal (onward (some a)) raised s (storeFrom w a i values s) := by
  induction values generalizing i s with
  | nil => exact passage.pure good _
  | cons v rest inductionHypothesis =>
      rw [Chunk.storeFrom]
      apply passage.bind (passage.item good inside _ _)
      intro _ _ reached
      exact inductionHypothesis (i + 1) (passage.passed reached) (passage.building reached ▸ inside)

mutual

theorem leads_eval (passage : Passage w condition goal onward raised)
    (admits : Admits w condition goal onward raised admitted) (e : Expr) (s : State)
    (ok : admitted e) (good : onward none s s) :
    Leads condition goal (onward none) raised s (eval w e s) := by
  cases e with
  | nil | boolean b | number n | string t | dots =>
      rw [eval]
      exact passage.pure good _
  | function =>
      rw [eval]
      exact Leads.silent (passage.function good)
  | id name =>
      rw [eval]
      exact passage.readName good name
  | call f args =>
      obtain ⟨okCallee, okArgs⟩ := admits.call ok
      rw [eval]
      apply passage.bind (leads_eval passage admits f s okCallee good)
      intro x ofCallee first
      apply passage.bind (leads_evalAll passage admits args _ okArgs (passage.passed first))
      intro xs ofArgs second
      exact admits.called ok good ofCallee ofArgs (passage.trans first second)
  | invoke object method args =>
      obtain ⟨okObject, okArgs⟩ := admits.invoke ok
      rw [eval]
      apply passage.bind (leads_eval passage admits object s okObject good)
      intro o _ first
      apply passage.bind (passage.access (passage.passed first) (by simp) (by simp))
      intro f _ second
      apply passage.bind (leads_evalAll passage admits args _ okArgs (passage.passed second))
      intro xs _ third
      exact admits.invoked ok (passage.passed third) _ _
  | paren inner =>
      rw [eval]
      apply passage.bind (leads_eval passage admits inner s (admits.paren ok) good)
      intro x _ reached
      exact passage.pure (passage.passed reached) _
  | unary op operand =>
      rw [eval]
      apply passage.bind (leads_eval passage admits operand s (admits.unary ok) good)
      intro x _ reached
      exact passage.access (passage.passed reached) (by simp) (by simp)
  | index base key =>
      obtain ⟨okBase, okKey⟩ := admits.index ok
      rw [eval]
      apply passage.bind (leads_eval passage admits base s okBase good)
      intro b _ first
      apply passage.bind (leads_eval passage admits key _ okKey (passage.passed first))
      intro k _ second
      exact passage.access (passage.passed second) (by simp) (by simp)
  | binary op left right =>
      obtain ⟨okLeft, okRight⟩ := admits.binary ok
      have ofLeft := leads_eval passage admits left s okLeft good
      have ofRight {s' : State} (reached : onward none s s') :
          Leads condition goal (onward none) raised s' (eval w right s') :=
        leads_eval passage admits right s' okRight (passage.passed reached)
      cases op with
      | and =>
          rw [eval]
          apply passage.bind ofLeft
          intro x _ first
          split_ifs
          · apply passage.bind (ofRight first)
            intro y _ second
            exact passage.pure (passage.passed second) _
          · exact passage.pure (passage.passed first) _
      | or =>
          rw [eval]
          apply passage.bind ofLeft
          intro x _ first
          split_ifs
          · exact passage.pure (passage.passed first) _
          · apply passage.bind (ofRight first)
            intro y _ second
            exact passage.pure (passage.passed second) _
      | _ =>
          rw [eval_strict w (by simp)]
          apply passage.bind ofLeft
          intro x _ first
          apply passage.bind (ofRight first)
          intro y _ second
          exact passage.access (passage.passed second) (by simp) (by simp)
  | table items =>
      have filled := leads_evalItems passage admits items s.heap.next 1 (newTable s).state
        (admits.table ok) (passage.table good) List.mem_cons_self
      have ended : Exact (∀ step ∈ (evalItems w s.heap.next 1 items (newTable s).state).steps,
          condition step) goal ((do
            evalItems w s.heap.next 1 items
            Eval.modify Chunk.finish
            Pure.pure [Value.table s.heap.next]) (newTable s).state)
          fun value s' => value.elim (raised s') fun _ => onward none s s' :=
        Exact.bind_silent filled (fun _ _ => rfl) (fun _ reached => passage.finish good reached) id
      rw [eval]
      apply ended.congr
      change (∀ step ∈ Result.steps (((evalItems w s.heap.next 1 items) >>= _) (newTable s).state),
        condition step) ↔ _
      rw [forall_bind, Result.Along]
      exact and_iff_left fun _ _ => List.forall_mem_nil _

theorem leads_evalAll (passage : Passage w condition goal onward raised)
    (admits : Admits w condition goal onward raised admitted) (values : List Expr) (s : State)
    (ok : ∀ e ∈ values, admitted e) (good : onward none s s) :
    Leads condition goal (onward none) raised s (evalAll w values s) := by
  cases values with
  | nil =>
      rw [evalAll]
      exact passage.pure good _
  | cons e rest =>
      have here := leads_eval passage admits e s (ok e List.mem_cons_self) good
      cases rest with
      | nil =>
          rw [evalAll]
          exact here
      | cons next rest =>
          rw [evalAll]
          · apply passage.bind here
            intro x _ first
            apply passage.bind (leads_evalAll passage admits (next :: rest) _
              (fun e member => ok e (List.mem_cons_of_mem _ member)) (passage.passed first))
            intro xs _ second
            exact passage.pure (passage.passed second) _
          · exact List.cons_ne_nil _ _

theorem leads_evalItems (passage : Passage w condition goal onward raised)
    (admits : Admits w condition goal onward raised admitted) (items : List Item) (a i : Nat)
    (s : State) (ok : ∀ item ∈ items, item.All admitted) (good : onward none s s)
    (inside : a ∈ s.building) :
    Leads condition goal (onward (some a)) raised s (evalItems w a i items s) := by
  have written {s' : State} (reached : onward (some a) s s') (k x : Value) :
      Leads condition goal (onward (some a)) raised s' (perform w (.assign (.table a) k x) s') :=
    passage.item (passage.passed reached) (passage.building reached ▸ inside) k x
  cases items with
  | nil =>
      rw [evalItems]
      exact passage.pure good _
  | cons item rest =>
      have okItem := ok item List.mem_cons_self
      have okRest : ∀ item ∈ rest, item.All admitted :=
        fun item member => ok item (List.mem_cons_of_mem _ member)
      cases item with
      | pair key value =>
          rw [evalItems]
          apply passage.bind (passage.but_of_none (leads_eval passage admits key s okItem.1 good) _)
          intro k _ first
          apply passage.bind (passage.but_of_none
            (leads_eval passage admits value _ okItem.2 (passage.passed first)) _)
          intro x _ second
          have reached := passage.trans first second
          apply passage.bind (written reached _ _)
          intro _ _ third
          exact leads_evalItems passage admits rest a i _ okRest (passage.passed third)
            (passage.building (passage.trans reached third) ▸ inside)
      | item value =>
          have here := passage.but_of_none (leads_eval passage admits value s okItem good) (some a)
          cases rest with
          | nil =>
              rw [evalItems]
              apply passage.bind here
              intro xs _ first
              exact passage.storeFrom xs i (passage.passed first)
                (passage.building first ▸ inside)
          | cons next rest =>
              rw [evalItems]
              · apply passage.bind here
                intro x _ first
                apply passage.bind (written first _ _)
                intro _ _ second
                exact leads_evalItems passage admits (next :: rest) a (i + 1) _ okRest
                  (passage.passed second) (passage.building (passage.trans first second) ▸ inside)
              · exact List.cons_ne_nil _ _

end

end Passage

end Qwe.Chunk
