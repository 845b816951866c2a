import Mathlib.Data.List.Chain
import Mathlib.Data.List.DropRight
import Qwe.Lib.Graph
import Qwe.Template.Expr

/-!
# The check of the needs graph

`src/kernel/dag.c`: every need names a job, and no job needs itself, directly or through
others.  A walk that would read or write outside of its arrays is a fault here; none is
one.
-/

set_option autoImplicit false

namespace Qwe.Dag

open Relation
open Qwe.Redact (Bytes)
open Qwe.Template (bytes)

/-- `struct qwe_dag_job` -/
structure DagJob where
  id : Bytes
  needs : List Bytes
deriving DecidableEq, Repr

/-- `find`: the first job of the name; -1 is none. -/
def find (jobs : List DagJob) (id : Bytes) : Option Nat := jobs.findIdx? fun job => job.id == id

inductive Color where
  | white
  | grey
  | black
deriving DecidableEq, Repr

/-- `struct walk`: the colours, and the jobs on the current path from the bottom up. -/
structure Walk where
  color : List Color
  stack : List Nat
deriving DecidableEq, Repr

/-- What `visit` leaves: no cycle, or the need that closes one; a fault is an access
outside of the arrays. -/
inductive Outcome where
  | done (w : Walk)
  | cycle (w : Walk) (d : Nat)
  | fault
deriving DecidableEq, Repr

/-! ## The walk -/

/-- `color[j] = GREY; stack[depth++] = j`, in arrays of `n`. -/
def Walk.enter (n : Nat) (w : Walk) (j : Nat) : Option Walk :=
  if j < n ∧ w.stack.length < n then some ⟨w.color.set j .grey, w.stack ++ [j]⟩ else none

/-- `depth--; color[j] = BLACK` -/
def Walk.leave (w : Walk) (j : Nat) : Walk := ⟨w.color.set j .black, w.stack.dropLast⟩

/-- The loop of `visit` over the needs of a job; `next` is `visit` itself. -/
def visitNeeds (jobs : List DagJob) (next : Walk → Nat → Option Outcome) :
    List Bytes → Walk → Option Outcome
  | [], w => some (.done w)
  | need :: rest, w =>
      match find jobs need with
      | none => some .fault
      | some d =>
          match w.color[d]? with
          | none => some .fault
          | some .grey =>
              -- `while (stack[s] != d) s++` ends inside of the stack
              if d ∈ w.stack then some (.cycle w d) else some .fault
          | some .white =>
              match next w d with
              | some (.done w') => visitNeeds jobs next rest w'
              | other => other
          | some .black => visitNeeds jobs next rest w

/-- `visit`; nothing where the fuel is used up. -/
def visit (jobs : List DagJob) : Nat → Walk → Nat → Option Outcome
  | 0, _, _ => none
  | fuel + 1, w, j =>
      match w.enter jobs.length j, jobs[j]? with
      | some entered, some job =>
          match visitNeeds jobs (visit jobs fuel) job.needs entered with
          | some (.done w') => some (.done (w'.leave j))
          | other => other
      | _, _ => some .fault

/-- The last loop of `qwe_dag_check`. -/
def visitAll (jobs : List DagJob) (fuel : Nat) : List Nat → Walk → Option Outcome
  | [], w => some (.done w)
  | i :: rest, w =>
      match w.color[i]? with
      | none => some .fault
      | some .white =>
          match visit jobs fuel w i with
          | some (.done w') => visitAll jobs fuel rest w'
          | other => other
      | some _ => visitAll jobs fuel rest w

/-- Both arrays as `calloc` gives them, and every job visited.  A path has each job once,
so the jobs are enough fuel. -/
def search (jobs : List DagJob) : Option Outcome :=
  visitAll jobs jobs.length (List.range jobs.length)
    ⟨List.replicate jobs.length .white, []⟩

/-! ## The report -/

inductive Status where
  | ok
  | unknownNeed
  | cycle
  | noMemory
deriving DecidableEq, Repr

/-- `struct qwe_dag_error` -/
structure DagError where
  status : Status
  job : Nat
  need : Nat
  message : Bytes
deriving DecidableEq, Repr

/-- `sizeof e->message` -/
def messageSize : Nat := 256

/-- What `snprintf` has put in the buffer, and how long it would be. -/
structure Message where
  len : Nat
  text : Bytes

def Message.put (m : Message) (s : Bytes) : Message :=
  if m.len < messageSize then ⟨m.len + s.length, m.text ++ s.take (messageSize - 1 - m.len)⟩
  else m

def idAt (jobs : List DagJob) (i : Nat) : Bytes := ((jobs[i]?).map DagJob.id).getD []

/-- The jobs of the stack from `d` on. -/
def sliceFrom (d : Nat) (stack : List Nat) : List Nat := stack.dropWhile (· != d)

def cycleMessage (jobs : List DagJob) (slice : List Nat) (d : Nat) : Bytes :=
  let opened : Message := Message.put ⟨0, []⟩ (bytes "needs cycle: ")
  let listed := slice.foldl (fun m i => m.put (idAt jobs i ++ bytes " -> ")) opened
  (listed.put (idAt jobs d)).text

def unknownMessage (id need : Bytes) : Bytes :=
  (bytes "job \"" ++ id ++ bytes "\" needs \"" ++ need ++ bytes "\", which is not a job").take
    (messageSize - 1)

/-- The first need that names no job: which job has it, and where. -/
def firstUnknown (jobs : List DagJob) : Option (Nat × Nat) :=
  jobs.zipIdx.findSome? fun entry =>
    (entry.1.needs.findIdx? fun need => (find jobs need).isNone).map (entry.2, ·)

/-- `qwe_dag_check`; nothing where the walk does not end, or faults. -/
def dagCheck (memory : Bool) (jobs : List DagJob) : Option DagError :=
  match firstUnknown jobs with
  | some (i, k) =>
      let need := ((jobs[i]?).bind fun job => job.needs[k]?).getD []
      some ⟨.unknownNeed, i, k, unknownMessage (idAt jobs i) need⟩
  | none =>
      if memory then
        match search jobs with
        | some (.done _) => some ⟨.ok, 0, 0, []⟩
        | some (.cycle w d) =>
            some ⟨.cycle, d, 0, cycleMessage jobs (sliceFrom d w.stack) d⟩
        | _ => none
      else some ⟨.noMemory, 0, 0, bytes "cannot check the needs: graph: out of memory"⟩

/-- The buffer has the first bytes of the text. -/
structure Message.Holds (m : Message) (full : Bytes) : Prop where
  text : m.text = full.take (messageSize - 1)
  short : m.len < messageSize → m.len = full.length
  cut : messageSize ≤ m.len → messageSize - 1 ≤ full.length

theorem Message.Holds.put {m : Message} {full : Bytes} (holds : m.Holds full) (s : Bytes) :
    (m.put s).Holds (full ++ s) := by
  obtain ⟨text, short, cut⟩ := holds
  by_cases room : m.len < messageSize
  · have len := short room
    rw [Message.put, if_pos room]
    refine ⟨?_, ?_, ?_⟩
    · dsimp only
      rw [text, List.take_append, len]
    · intro _
      rw [List.length_append, len]
    · intro full_
      dsimp only at full_
      rw [List.length_append]
      omega
  · have already := cut (Nat.le_of_not_lt room)
    rw [Message.put, if_neg room]
    refine ⟨?_, fun again => absurd again room, fun _ => ?_⟩
    · rw [text, List.take_append_of_le_length already]
    · rw [List.length_append]
      omega

/-- The message is cut where the buffer ends. -/
theorem cycleMessage_eq (jobs : List DagJob) (slice : List Nat) (d : Nat) :
    cycleMessage jobs slice d
      = (bytes "needs cycle: " ++ slice.flatMap (fun i => idAt jobs i ++ bytes " -> ") ++
          idAt jobs d).take (messageSize - 1) := by
  have listed {m : Message} {full : Bytes} (holds : m.Holds full) :
      (slice.foldl (fun m i => m.put (idAt jobs i ++ bytes " -> ")) m).Holds
        (full ++ slice.flatMap fun i => idAt jobs i ++ bytes " -> ") := by
    induction slice generalizing m full with
    | nil => simpa using holds
    | cons i rest inductionHypothesis =>
        rw [List.foldl_cons, List.flatMap_cons, ← List.append_assoc]
        exact inductionHypothesis (holds.put _)
  have empty : Message.Holds ⟨0, []⟩ [] := ⟨rfl, fun _ => rfl, fun full => by cases full⟩
  exact ((listed (empty.put (bytes "needs cycle: "))).put (idAt jobs d)).text

/-! ## The graph -/

/-- Job `i` has a need that the walk takes for job `d`. -/
def Edge (jobs : List DagJob) (i d : Nat) : Prop :=
  ∃ job, jobs[i]? = some job ∧ ∃ need ∈ job.needs, find jobs need = some d

/-- Every need names a job. -/
def Known (jobs : List DagJob) : Prop :=
  ∀ job ∈ jobs, ∀ need ∈ job.needs, ∃ other ∈ jobs, other.id = need

/-- Job `d` is named by a need of job `i`. -/
def Needs (jobs : List DagJob) (i d : Nat) : Prop :=
  ∃ job other, jobs[i]? = some job ∧ jobs[d]? = some other ∧ other.id ∈ job.needs

theorem find_lt {jobs : List DagJob} {id : Bytes} {d : Nat} (found : find jobs id = some d) :
    d < jobs.length := by
  obtain ⟨inside, -⟩ := List.findIdx?_eq_some_iff_getElem.mp found
  exact inside

theorem find_id {jobs : List DagJob} {id : Bytes} {d : Nat} (found : find jobs id = some d) :
    ∃ job, jobs[d]? = some job ∧ job.id = id := by
  obtain ⟨inside, same, -⟩ := List.findIdx?_eq_some_iff_getElem.mp found
  exact ⟨jobs[d], List.getElem?_eq_getElem inside, by simpa using same⟩

theorem find_isSome_iff {jobs : List DagJob} {id : Bytes} :
    (find jobs id).isSome = true ↔ ∃ job ∈ jobs, job.id = id := by
  rw [find, List.findIdx?_isSome, List.any_eq_true]
  simp

/-- Under distinct ids the first job of a name is the only one. -/
theorem find_of_id {jobs : List DagJob} (distinct : (jobs.map DagJob.id).Nodup) {d : Nat}
    {job : DagJob} (at_ : jobs[d]? = some job) : find jobs job.id = some d := by
  obtain ⟨inside, rfl⟩ := List.getElem?_eq_some_iff.mp at_
  refine List.findIdx?_eq_some_iff_getElem.mpr ⟨inside, by simp, ?_⟩
  intro j before
  have apart : (jobs.map DagJob.id)[j]? ≠ (jobs.map DagJob.id)[d]? := by
    intro same
    have equal := (List.getElem?_inj (by simp; omega) distinct).mp same
    omega
  simp only [List.getElem?_map, List.getElem?_eq_getElem inside,
    List.getElem?_eq_getElem (Nat.lt_trans before inside), Option.map_some, ne_eq,
    Option.some.injEq] at apart
  simpa using apart

theorem edge_iff_needs {jobs : List DagJob} (distinct : (jobs.map DagJob.id).Nodup) {i d : Nat} :
    Edge jobs i d ↔ Needs jobs i d := by
  constructor
  · rintro ⟨job, at_, need, member, found⟩
    obtain ⟨other, there, rfl⟩ := find_id found
    exact ⟨job, other, at_, there, member⟩
  · rintro ⟨job, other, at_, there, member⟩
    exact ⟨job, at_, other.id, member, find_of_id distinct there⟩

/-! ## What the walk keeps -/

/-- The grey jobs are those of the stack, which is a path; the black ones need only black
ones, and none of them is on a cycle. -/
structure Sound (jobs : List DagJob) (w : Walk) : Prop where
  sized : w.color.length = jobs.length
  grey : ∀ i, w.color[i]? = some .grey ↔ i ∈ w.stack
  nodup : w.stack.Nodup
  path : w.stack.IsChain (Edge jobs)
  closed : ∀ i d, w.color[i]? = some .black → Edge jobs i d → w.color[d]? = some .black
  acyclic : ∀ i, w.color[i]? = some .black → ¬ TransGen (Edge jobs) i i

/-- The stack is as before, and what has a colour keeps it. -/
structure Past (jobs : List DagJob) (w w' : Walk) : Prop where
  sound : Sound jobs w'
  stack : w'.stack = w.stack
  settled : ∀ (i : Nat) (c : Color), w.color[i]? = some c → c ≠ .white → w'.color[i]? = some c

/-- The stack from `d` to its top is a cycle of the graph. -/
structure Closes (jobs : List DagJob) (w : Walk) (d : Nat) : Prop where
  room : w.stack.length ≤ jobs.length
  path : (sliceFrom d w.stack).IsChain (Edge jobs)
  first : (sliceFrom d w.stack).head? = some d
  back : ∀ last ∈ (sliceFrom d w.stack).getLast?, Edge jobs last d

/-- A walk ends, and does not fault. -/
def Ends (jobs : List DagJob) (post : Walk → Prop) : Option Outcome → Prop
  | some (.done w) => post w
  | some (.cycle w d) => Closes jobs w d
  | some .fault => False
  | none => False

def whites (w : Walk) : Nat := w.color.count .white

section Walks
variable {jobs : List DagJob} {w w' : Walk}

theorem Past.refl (sound : Sound jobs w) : Past jobs w w := ⟨sound, rfl, fun _ _ here _ => here⟩

theorem Past.trans {w'' : Walk} (first : Past jobs w w') (second : Past jobs w' w'') :
    Past jobs w w'' :=
  ⟨second.sound, second.stack.trans first.stack, fun i c here colored =>
    second.settled i c (first.settled i c here colored) colored⟩

/-- No job turns white. -/
theorem Past.whites_le (past : Past jobs w w') (sound : Sound jobs w) : whites w' ≤ whites w := by
  have same : w'.color.length = w.color.length := past.sound.sized.trans sound.sized.symm
  have pointwise :
      List.Forall₂ (fun c c' => c' = Color.white → c = Color.white) w.color w'.color := by
    rw [List.forall₂_iff_get]
    refine ⟨same.symm, ?_⟩
    intro i inside inside' isWhite
    by_contra colored
    have kept := past.settled i _ (List.getElem?_eq_getElem inside) colored
    rw [List.getElem?_eq_getElem inside', Option.some.injEq] at kept
    exact colored (kept.symm.trans isWhite)
  unfold whites
  generalize w.color = before at pointwise
  generalize w'.color = after at pointwise
  induction pointwise with
  | nil => exact le_refl _
  | @cons c c' _ _ head _ inductionHypothesis =>
      rw [List.count_cons, List.count_cons]
      by_cases isWhite : c' = .white
      · rw [head isWhite, isWhite]
        omega
      · rw [if_neg (by simpa using isWhite)]
        omega

theorem Sound.black_of_reaches (sound : Sound jobs w) {i d : Nat}
    (black : w.color[i]? = some .black) (path : ReflTransGen (Edge jobs) i d) :
    w.color[d]? = some .black := by
  induction path with
  | refl => exact black
  | tail _ edge inductionHypothesis => exact sound.closed _ _ inductionHypothesis edge

theorem Sound.stack_lt (sound : Sound jobs w) {i : Nat} (member : i ∈ w.stack) :
    i < jobs.length := by
  rw [← sound.sized]
  exact (List.getElem?_eq_some_iff.mp ((sound.grey i).mpr member)).1

/-- Each job is on the stack at most once. -/
theorem length_le_of_nodup {stack : List Nat} (nodup : stack.Nodup)
    (inside : ∀ i ∈ stack, i < jobs.length) : stack.length ≤ jobs.length := by
  have shorter : stack.length ≤ (List.range jobs.length).length := by
    apply List.Subperm.length_le
    exact nodup.subperm fun i member => List.mem_range.mpr (inside i member)
  rw [List.length_range] at shorter
  exact shorter

/-! ## One job -/

/-- A white job is put on the stack behind the job that needs it. -/
theorem sound_enter (sound : Sound jobs w) {j : Nat} (white : w.color[j]? = some .white)
    (path : (w.stack ++ [j]).IsChain (Edge jobs)) :
    ∃ entered, w.enter jobs.length j = some entered ∧ Sound jobs entered ∧
      entered.stack = w.stack ++ [j] ∧ whites entered + 1 = whites w ∧
      ∀ i, i ≠ j → entered.color[i]? = w.color[i]? := by
  have inside : j < w.color.length := (List.getElem?_eq_some_iff.mp white).1
  have fresh : j ∉ w.stack := by
    intro member
    have grey := (sound.grey j).mpr member
    rw [white] at grey
    cases grey
  have room : w.stack.length < jobs.length := by
    have all : ∀ i ∈ j :: w.stack, i < jobs.length := by
      intro i member
      rcases List.mem_cons.mp member with rfl | below
      · rw [← sound.sized]
        exact inside
      · exact sound.stack_lt below
    exact length_le_of_nodup (List.nodup_cons.mpr ⟨fresh, sound.nodup⟩) all
  have others : ∀ i, i ≠ j → (w.color.set j .grey)[i]? = w.color[i]? := fun i apart =>
    List.getElem?_set_ne (Ne.symm apart)
  have blackened {i : Nat} :
      (w.color.set j .grey)[i]? = some .black ↔ w.color[i]? = some .black := by
    by_cases same : i = j
    · subst same
      rw [List.getElem?_set_self inside, white]
      simp
    · rw [others i same]
  refine ⟨⟨w.color.set j .grey, w.stack ++ [j]⟩, ?_, ⟨?_, ?_, ?_, path, ?_, ?_⟩, rfl, ?_, others⟩
  · rw [Walk.enter, if_pos ⟨sound.sized ▸ inside, room⟩]
  · rw [List.length_set]
    exact sound.sized
  · intro i
    dsimp only
    by_cases same : i = j
    · subst same
      rw [List.getElem?_set_self inside]
      simp
    · rw [others i same, sound.grey i]
      simp [same]
  · rw [List.nodup_append]
    refine ⟨sound.nodup, List.nodup_singleton j, ?_⟩
    rintro i member _ (last : _ ∈ [j]) rfl
    rw [List.mem_singleton.mp last] at member
    exact fresh member
  · intro i d black edge
    exact blackened.mpr (sound.closed i d (blackened.mp black) edge)
  · intro i black
    exact sound.acyclic i (blackened.mp black)
  · rw [whites, whites, List.count_set inside]
    have here : w.color[j] = .white := by
      rw [List.getElem?_eq_getElem inside] at white
      exact Option.some.inj white
    have positive : 0 < w.color.count .white :=
      List.count_pos_iff.mpr (here ▸ List.getElem_mem inside)
    rw [here]
    simp only [beq_self_eq_true, ↓reduceIte]
    rw [if_neg (by decide)]
    omega

/-- A job whose needs are all black leaves the stack black. -/
theorem sound_leave (sound : Sound jobs w) {below : List Nat} {j : Nat}
    (top : w.stack = below ++ [j]) (needed : ∀ d, Edge jobs j d → w.color[d]? = some .black) :
    Sound jobs (w.leave j) ∧ (w.leave j).stack = below ∧
      (w.leave j).color[j]? = some .black ∧ ∀ i, i ≠ j → (w.leave j).color[i]? = w.color[i]? := by
  have grey : w.color[j]? = some .grey := (sound.grey j).mpr (by rw [top]; simp)
  have inside : j < w.color.length := (List.getElem?_eq_some_iff.mp grey).1
  have stack : (w.leave j).stack = below := by
    rw [Walk.leave, top, List.dropLast_concat]
  have self : (w.leave j).color[j]? = some .black := List.getElem?_set_self inside
  have others : ∀ i, i ≠ j → (w.leave j).color[i]? = w.color[i]? := fun i apart =>
    List.getElem?_set_ne (Ne.symm apart)
  have split := sound.nodup
  rw [top, List.nodup_append] at split
  have fresh : j ∉ below := fun member => split.2.2 j member j (List.mem_singleton_self j) rfl
  refine ⟨⟨?_, ?_, ?_, ?_, ?_, ?_⟩, stack, self, others⟩
  · rw [Walk.leave, List.length_set]
    exact sound.sized
  · intro i
    rw [stack]
    by_cases same : i = j
    · subst same
      rw [self]
      simp [fresh]
    · rw [others i same, sound.grey i, top]
      simp [same]
  · rw [stack]
    exact split.1
  · rw [stack]
    have path := sound.path
    rw [top] at path
    exact path.left_of_append
  · intro i d black edge
    -- only `j` itself has turned black, and what it needs is black
    have need : w.color[d]? = some .black := by
      by_cases same : i = j
      · exact needed d (same ▸ edge)
      · rw [others i same] at black
        exact sound.closed i d black edge
    by_cases same : d = j
    · rw [same]
      exact self
    · rw [others d same]
      exact need
  · intro i black cycle
    by_cases same : i = j
    · subst same
      obtain ⟨d, edge, path⟩ := TransGen.head'_iff.mp cycle
      have again := sound.black_of_reaches (needed d edge) path
      rw [grey] at again
      cases again
    · rw [others i same] at black
      exact sound.acyclic i black cycle

/-- A grey need closes a cycle. -/
theorem closes_of_grey (sound : Sound jobs w) {j d : Nat} (top : w.stack.getLast? = some j)
    (edge : Edge jobs j d) (member : d ∈ w.stack) : Closes jobs w d := by
  have suffix : sliceFrom d w.stack <:+ w.stack := List.dropWhile_suffix _
  have filled : sliceFrom d w.stack ≠ [] := by
    rw [sliceFrom, ne_eq, List.dropWhile_eq_nil_iff]
    intro all
    have absurd_ := all d member
    simp at absurd_
  refine ⟨length_le_of_nodup sound.nodup fun i => sound.stack_lt, sound.path.suffix suffix, ?_, ?_⟩
  · have stopped := List.head_dropWhile_not (fun i => i != d) filled
    have first : (sliceFrom d w.stack).head filled = d := by simpa [sliceFrom] using stopped
    rw [List.head?_eq_some_head filled, first]
  · intro last isLast
    obtain ⟨front, same⟩ := suffix
    rw [← same, List.getLast?_append_of_ne_nil _ filled] at top
    have both : last = j := by
      rw [Option.mem_def, top] at isLast
      exact (Option.some.inj isLast).symm
    rw [both]
    exact edge

theorem path_push (sound : Sound jobs w) {j d : Nat} (top : w.stack.getLast? = some j)
    (edge : Edge jobs j d) : (w.stack ++ [d]).IsChain (Edge jobs) := by
  rw [List.isChain_append]
  refine ⟨sound.path, List.isChain_singleton d, ?_⟩
  intro last isLast first isFirst
  rw [Option.mem_def, top] at isLast
  cases isLast
  cases isFirst
  exact edge

/-! ## The whole walk -/

theorem Ends.mono {post post' : Walk → Prop} {r : Option Outcome} (ends : Ends jobs post r)
    (weaker : ∀ w, post w → post' w) : Ends jobs post' r := by
  match r, ends with
  | some (.done w), holds => exact weaker w holds
  | some (.cycle w d), closes => exact closes

theorem ends_visitNeeds {next : Walk → Nat → Option Outcome} {fuel : Nat}
    (recursive : ∀ w d, Sound jobs w → w.color[d]? = some .white →
      (w.stack ++ [d]).IsChain (Edge jobs) → whites w ≤ fuel →
      Ends jobs (fun w' => Past jobs w w' ∧ w'.color[d]? = some .black) (next w d))
    {j : Nat} (needs : List Bytes) {w : Walk}
    (known : ∀ need ∈ needs, ∃ d, find jobs need = some d ∧ Edge jobs j d)
    (sound : Sound jobs w) (top : w.stack.getLast? = some j) (enough : whites w ≤ fuel) :
    Ends jobs (fun w' => Past jobs w w' ∧
      ∀ need ∈ needs, ∀ d, find jobs need = some d → w'.color[d]? = some .black)
      (visitNeeds jobs next needs w) := by
  induction needs generalizing w with
  | nil => exact ⟨Past.refl sound, fun need member => absurd member List.not_mem_nil⟩
  | cons need rest inductionHypothesis =>
      obtain ⟨d, found, edge⟩ := known need List.mem_cons_self
      have knownRest : ∀ need ∈ rest, ∃ d, find jobs need = some d ∧ Edge jobs j d :=
        fun need member => known need (List.mem_cons_of_mem _ member)
      have inside : d < w.color.length := by
        rw [sound.sized]
        exact find_lt found
      -- behind a need that is black in `w'`
      have behind {w' : Walk} (past : Past jobs w w') (black : w'.color[d]? = some .black) :
          Ends jobs (fun w' => Past jobs w w' ∧
            ∀ other ∈ need :: rest, ∀ d, find jobs other = some d → w'.color[d]? = some .black)
            (visitNeeds jobs next rest w') := by
        apply (inductionHypothesis knownRest past.sound (past.stack ▸ top)
          ((past.whites_le sound).trans enough)).mono
        rintro w'' ⟨later, blackRest⟩
        refine ⟨past.trans later, ?_⟩
        intro other member d' found'
        rcases List.mem_cons.mp member with rfl | inRest
        · rw [found] at found'
          cases found'
          exact later.settled d .black black (by decide)
        · exact blackRest other inRest d' found'
      rw [visitNeeds, found]
      dsimp only
      cases color : w.color[d]? with
      | none =>
          rw [List.getElem?_eq_getElem inside] at color
          cases color
      | some c =>
          cases c with
          | white =>
              have visited := recursive w d sound color (path_push sound top edge) enough
              dsimp only
              match outcome : next w d, visited with
              | some (.done w'), ⟨past, black⟩ => exact behind past black
              | some (.cycle w' d'), closes => exact closes
          | grey =>
              have member := (sound.grey d).mp color
              dsimp only
              rw [if_pos member]
              exact closes_of_grey sound top edge member
          | black => exact behind (Past.refl sound) color

theorem whites_pos {j : Nat} (white : w.color[j]? = some .white) : 0 < whites w := by
  obtain ⟨inside, here⟩ := List.getElem?_eq_some_iff.mp white
  exact List.count_pos_iff.mpr (here ▸ List.getElem_mem inside)

theorem ends_visit (known : ∀ job ∈ jobs, ∀ need ∈ job.needs, ∃ d, find jobs need = some d)
    (fuel : Nat) {w : Walk} {j : Nat} (sound : Sound jobs w) (white : w.color[j]? = some .white)
    (path : (w.stack ++ [j]).IsChain (Edge jobs)) (enough : whites w ≤ fuel) :
    Ends jobs (fun w' => Past jobs w w' ∧ w'.color[j]? = some .black) (visit jobs fuel w j) := by
  induction fuel generalizing w j with
  | zero =>
      have some_ := whites_pos white
      omega
  | succ fuel inductionHypothesis =>
      obtain ⟨entered, enters, soundIn, stackIn, fewer, others⟩ := sound_enter sound white path
      have inside : j < jobs.length := by
        rw [← sound.sized]
        exact (List.getElem?_eq_some_iff.mp white).1
      have here : jobs[j]? = some jobs[j] := List.getElem?_eq_getElem inside
      have edges : ∀ need ∈ jobs[j].needs, ∃ d, find jobs need = some d ∧ Edge jobs j d := by
        intro need member
        obtain ⟨d, found⟩ := known _ (List.getElem_mem inside) need member
        exact ⟨d, found, jobs[j], here, need, member, found⟩
      have looped := ends_visitNeeds (fun w d => inductionHypothesis) jobs[j].needs edges soundIn
        (by rw [stackIn]; simp) (by omega)
      rw [visit, enters, here]
      dsimp only
      match outcome : visitNeeds jobs (visit jobs fuel) jobs[j].needs entered, looped with
      | some (.cycle w' d), closes => exact closes
      | some (.done w'), ⟨past, black⟩ =>
          have needed : ∀ d, Edge jobs j d → w'.color[d]? = some .black := by
            rintro d ⟨job, at_, need, member, found⟩
            rw [here] at at_
            cases at_
            exact black need member d found
          obtain ⟨soundOut, stackOut, self, kept⟩ :=
            sound_leave past.sound (past.stack.trans stackIn) needed
          refine ⟨⟨soundOut, stackOut, ?_⟩, self⟩
          intro i c color colored
          by_cases same : i = j
          · rw [same, white] at color
            cases color
            exact absurd rfl colored
          · rw [kept i same]
            exact past.settled i c ((others i same).trans color) colored

theorem ends_visitAll (known : ∀ job ∈ jobs, ∀ need ∈ job.needs, ∃ d, find jobs need = some d)
    {fuel : Nat} (rest : List Nat) {w : Walk} (inside : ∀ i ∈ rest, i < jobs.length)
    (sound : Sound jobs w) (empty : w.stack = []) (enough : whites w ≤ fuel) :
    Ends jobs (fun w' => Past jobs w w' ∧ ∀ i ∈ rest, w'.color[i]? = some .black)
      (visitAll jobs fuel rest w) := by
  induction rest generalizing w with
  | nil => exact ⟨Past.refl sound, fun i member => absurd member List.not_mem_nil⟩
  | cons i rest inductionHypothesis =>
      have behind {w' : Walk} (past : Past jobs w w') (black : w'.color[i]? = some .black) :
          Ends jobs (fun w' => Past jobs w w' ∧ ∀ i' ∈ i :: rest, w'.color[i']? = some .black)
            (visitAll jobs fuel rest w') := by
        apply (inductionHypothesis (fun i member => inside i (List.mem_cons_of_mem _ member))
          past.sound (past.stack.trans empty) ((past.whites_le sound).trans enough)).mono
        rintro w'' ⟨later, blackRest⟩
        refine ⟨past.trans later, ?_⟩
        intro i' member
        rcases List.mem_cons.mp member with rfl | inRest
        · exact later.settled _ .black black (by decide)
        · exact blackRest i' inRest
      have bound : i < w.color.length := by
        rw [sound.sized]
        exact inside i List.mem_cons_self
      rw [visitAll]
      cases color : w.color[i]? with
      | none =>
          rw [List.getElem?_eq_getElem bound] at color
          cases color
      | some c =>
          cases c with
          | white =>
              have path : (w.stack ++ [i]).IsChain (Edge jobs) := by
                rw [empty]
                exact List.isChain_singleton i
              have visited := ends_visit known fuel sound color path enough
              dsimp only
              match outcome : visit jobs fuel w i, visited with
              | some (.done w'), ⟨past, black⟩ => exact behind past black
              | some (.cycle w' d), closes => exact closes
          | grey =>
              have member := (sound.grey i).mp color
              rw [empty] at member
              cases member
          | black => exact behind (Past.refl sound) color

theorem sound_start (jobs : List DagJob) :
    Sound jobs ⟨List.replicate jobs.length .white, []⟩ := by
  have white {i : Nat} {c : Color} (color : (List.replicate jobs.length Color.white)[i]? = some c) :
      c = .white := by
    have member := List.mem_of_getElem? color
    exact List.eq_of_mem_replicate member
  refine ⟨List.length_replicate, ?_, List.nodup_nil, List.isChain_nil, ?_, ?_⟩
  · intro i
    constructor
    · intro grey
      cases white grey
    · intro member
      cases member
  · intro i d black
    cases white black
  · intro i black
    cases white black

/-- The walk ends: at a cycle, or with every job black. -/
theorem ends_search (known : ∀ job ∈ jobs, ∀ need ∈ job.needs, ∃ d, find jobs need = some d) :
    Ends jobs (fun _ => ∀ i, ¬ TransGen (Edge jobs) i i) (search jobs) := by
  have enough : whites ⟨List.replicate jobs.length .white, []⟩ ≤ jobs.length := by
    simp [whites]
  apply (ends_visitAll known (List.range jobs.length) (fun i => List.mem_range.mp)
    (sound_start jobs) rfl enough).mono
  rintro w ⟨past, black⟩ i cycle
  obtain ⟨d, ⟨job, here, -⟩, -⟩ := TransGen.head'_iff.mp cycle
  have inside : i < jobs.length := (List.getElem?_eq_some_iff.mp here).1
  exact past.sound.acyclic i (black i (List.mem_range.mpr inside)) cycle

end Walks

/-! ## The verdict -/

theorem known_iff {jobs : List DagJob} :
    Known jobs ↔ ∀ job ∈ jobs, ∀ need ∈ job.needs, ∃ d, find jobs need = some d := by
  refine forall₄_congr fun job _ need _ => ?_
  rw [← find_isSome_iff, Option.isSome_iff_exists]

/-- The need that is reported names no job. -/
theorem firstUnknown_spec {jobs : List DagJob} {i k : Nat}
    (unknown : firstUnknown jobs = some (i, k)) :
    ∃ job need, jobs[i]? = some job ∧ job.needs[k]? = some need ∧ find jobs need = none := by
  obtain ⟨entry, member, here⟩ := List.exists_of_findSome?_eq_some unknown
  obtain ⟨found, index, same⟩ := Option.map_eq_some_iff.mp here
  cases same
  obtain ⟨inside, isNone, -⟩ := List.findIdx?_eq_some_iff_getElem.mp index
  exact ⟨entry.1, entry.1.needs[k], List.mem_zipIdx_iff_getElem?.mp member,
    List.getElem?_eq_getElem inside, by simpa using isNone⟩

theorem firstUnknown_none_iff {jobs : List DagJob} : firstUnknown jobs = none ↔ Known jobs := by
  rw [known_iff, firstUnknown, List.findSome?_eq_none_iff]
  constructor
  · intro all job member need needed
    obtain ⟨i, inside, rfl⟩ := List.mem_iff_getElem.mp member
    have none_ := all (jobs[i], i)
      (List.mem_zipIdx_iff_getElem?.mpr (List.getElem?_eq_getElem inside))
    rw [Option.map_eq_none_iff, List.findIdx?_eq_none_iff] at none_
    have isSome := none_ need needed
    exact Option.isSome_iff_exists.mp (by simpa [Option.isNone_eq_false_iff] using isSome)
  · intro known entry member
    rw [Option.map_eq_none_iff, List.findIdx?_eq_none_iff]
    intro need needed
    have inJobs : entry.1 ∈ jobs := List.mem_of_getElem? (List.mem_zipIdx_iff_getElem?.mp member)
    obtain ⟨d, found⟩ := known entry.1 inJobs need needed
    rw [found]
    rfl

/-- The stack from `d` on is a cycle of needs. -/
structure IsCycle (jobs : List DagJob) (slice : List Nat) (d : Nat) : Prop where
  path : slice.IsChain (Needs jobs)
  first : slice.head? = some d
  back : ∀ last ∈ slice.getLast?, Needs jobs last d

theorem IsCycle.needs {jobs : List DagJob} {slice : List Nat} {d : Nat}
    (cycle : IsCycle jobs slice d) : TransGen (Needs jobs) d d := by
  have filled : slice ≠ [] := by
    intro empty
    have first := cycle.first
    rw [empty] at first
    cases first
  have path := List.relationReflTransGen_of_exists_isChain slice cycle.path filled
  have head : slice.head filled = d := by
    have first := cycle.first
    rw [List.head?_eq_some_head filled] at first
    exact Option.some.inj first
  rw [head] at path
  exact TransGen.tail' path (cycle.back _ (List.getLast?_eq_some_getLast filled))

/-- The check ends within its arrays.  It accepts exactly the graphs in which every need
names a job and none is on a cycle, and what it reports is so. -/
theorem dagCheck_decides {jobs : List DagJob} (distinct : (jobs.map DagJob.id).Nodup) :
    ∃ err, dagCheck true jobs = some err ∧
      (err.status = .ok ↔ Known jobs ∧ ∀ i, ¬ TransGen (Needs jobs) i i) ∧
      (err.status = .unknownNeed → ∃ job need, jobs[err.job]? = some job ∧
        job.needs[err.need]? = some need ∧ ∀ other ∈ jobs, other.id ≠ need) ∧
      (err.status = .cycle → TransGen (Needs jobs) err.job err.job ∧
        ∃ w, search jobs = some (.cycle w err.job) ∧ w.stack.length ≤ jobs.length ∧
          IsCycle jobs (sliceFrom err.job w.stack) err.job) := by
  unfold dagCheck
  cases unknown : firstUnknown jobs with
  | some place =>
      obtain ⟨i, k⟩ := place
      obtain ⟨job, need, here, needed, missing⟩ := firstUnknown_spec unknown
      have notKnown : ¬ Known jobs := by
        rw [← firstUnknown_none_iff, unknown]
        exact Option.some_ne_none _
      refine ⟨_, rfl, ?_, ?_, ?_⟩
      · exact ⟨fun same => Status.noConfusion same, fun fine => absurd fine.1 notKnown⟩
      · intro _
        refine ⟨job, need, here, needed, ?_⟩
        intro other member same
        have some_ := find_isSome_iff.mpr ⟨other, member, same⟩
        rw [missing] at some_
        cases some_
      · exact fun same => Status.noConfusion same
  | none =>
      have known := firstUnknown_none_iff.mp unknown
      have ends := ends_search (known_iff.mp known)
      have edges : Edge jobs = Needs jobs := by
        funext i d
        exact propext (edge_iff_needs distinct)
      rw [edges] at ends
      dsimp only
      rw [if_pos rfl]
      match outcome : search jobs, ends with
      | some (.done w), acyclic =>
          refine ⟨_, rfl, ?_, ?_, ?_⟩
          · exact ⟨fun _ => ⟨known, acyclic⟩, fun _ => rfl⟩
          · exact fun same => Status.noConfusion same
          · exact fun same => Status.noConfusion same
      | some (.cycle w d), closes =>
          have cycle : IsCycle jobs (sliceFrom d w.stack) d := by
            refine ⟨edges ▸ closes.path, closes.first, ?_⟩
            rw [← edges]
            exact closes.back
          refine ⟨_, rfl, ?_, ?_, ?_⟩
          · exact ⟨fun same => Status.noConfusion same, fun fine => absurd cycle.needs (fine.2 d)⟩
          · exact fun same => Status.noConfusion same
          · exact fun _ => ⟨cycle.needs, w, rfl, closes.room, cycle⟩

/-- Three jobs that need each other, and one that hangs off them. -/
def threeRing : List DagJob :=
  [⟨bytes "a", [bytes "c"]⟩, ⟨bytes "b", [bytes "a"]⟩, ⟨bytes "c", [bytes "b"]⟩,
    ⟨bytes "d", [bytes "a"]⟩]

theorem dagCheck_decides_threeRing : TransGen (Needs threeRing) 0 0 := by
  have nodup : (threeRing.map DagJob.id).Nodup := by decide
  obtain ⟨err, checked, -, -, cyclic⟩ := dagCheck_decides nodup
  have same : dagCheck true threeRing
      = some ⟨.cycle, 0, 0, bytes "needs cycle: a -> c -> b -> a"⟩ := by decide
  rw [same] at checked
  cases checked
  exact (cyclic rfl).1

end Qwe.Dag
