import Mathlib.Data.List.Basic
import Mathlib.Data.List.Indexes
import Mathlib.Logic.Relation
import Qwe.Template.Expr

/-!
# The choice of jobs

`select_jobs` of `src/kernel/workflow.c`: `--job` keeps the chosen jobs and everything they
need.  The marks are swept until a sweep changes nothing, then the array is closed up in
place.  An index outside of an array is a fault here, that is, no result.
-/

set_option autoImplicit false

namespace Qwe.Select

open Relation
open Qwe.Redact (Bytes)
open Qwe.Template (bytes)

/-- What `select_jobs` reads of a `struct job`; the whole of it moves. -/
structure Job where
  id : Bytes
  needs : List Bytes
  target : Bytes
deriving DecidableEq, Repr

/-- `find_job`, as an index: the first job of the name. -/
def findJob (jobs : List Job) (id : Bytes) : Option Nat := jobs.findIdx? fun job => job.id == id

/-- What the caller sees: the return value, the list, and what was printed. -/
structure Selection where
  code : Int
  jobs : List Job
  diag : Bytes
deriving DecidableEq, Repr

/-! ## The marks -/

/-- The loop over the requested ids: the marks, or the id that names no job. -/
def mark (jobs : List Job) : List Bytes → List Bool → Except Bytes (List Bool)
  | [], keep => .ok keep
  | id :: rest, keep =>
      match findJob jobs id with
      | none => .error id
      | some j => mark jobs rest (keep.set j true)

/-- The marks in a sweep, and whether it has changed one. -/
structure Sweep where
  keep : List Bool
  changed : Bool

/-- The inner loop, over the needs of job `i`: `keep[i]` is read again at each need. -/
def sweepNeeds (jobs : List Job) (i : Nat) : List Bytes → Sweep → Option Sweep
  | [], s => some s
  | need :: rest, s =>
      if s.keep[i]? = some true then
        match findJob jobs need with
        | none => none
        | some d =>
            if s.keep[d]? = some true then sweepNeeds jobs i rest s
            else sweepNeeds jobs i rest ⟨s.keep.set d true, true⟩
      else some s

/-- The loop over the jobs, each with its place. -/
def sweepJobs (jobs : List Job) : List (Job × Nat) → Sweep → Option Sweep
  | [], s => some s
  | (job, i) :: rest, s =>
      match sweepNeeds jobs i job.needs s with
      | none => none
      | some s' => sweepJobs jobs rest s'

/-- The `do` loop; nothing where the fuel is used up. -/
def sweeps (jobs : List Job) : Nat → List Bool → Option (List Bool)
  | 0, _ => none
  | fuel + 1, keep =>
      match sweepJobs jobs jobs.zipIdx ⟨keep, false⟩ with
      | none => none
      | some s => if s.changed then sweeps jobs fuel s.keep else some s.keep

/-! ## Closing up -/

/-- `jobs[kept++] = jobs[i]` for every marked `i`, in one array. -/
def closeUp (keep : List Bool) : List Nat → List Job × Nat → Option (List Job × Nat)
  | [], s => some s
  | i :: rest, (jobs, kept) =>
      if keep[i]? = some true then
        match jobs[i]? with
        | none => none
        | some job => closeUp keep rest (jobs.set kept job, kept + 1)
      else closeUp keep rest (jobs, kept)

/-- `select_jobs`; nothing where a loop does not end, or an index is outside. -/
def selectJobs (memory : Bool) (jobs : List Job) (requested : List Bytes) : Option Selection :=
  if memory then
    match mark jobs requested (List.replicate jobs.length false) with
    | .error id =>
        some ⟨-1, jobs, bytes "qwe run: --job " ++ id ++ bytes ": the workflow has no such job\n"⟩
    | .ok keep =>
        match sweeps jobs (jobs.length + 1) keep with
        | none => none
        | some keep =>
            match closeUp keep (List.range jobs.length) (jobs, 0) with
            | none => none
            | some (jobs, kept) => some ⟨0, jobs.take kept, []⟩
  else some ⟨-1, jobs, bytes "qwe run: --job: out of memory\n"⟩

/-! ## What is to be kept -/

/-- The first job of that name is at place `d`. -/
def Named (jobs : List Job) (id : Bytes) (d : Nat) : Prop :=
  (∃ job, jobs[d]? = some job ∧ job.id = id) ∧
    ∀ k job, k < d → jobs[k]? = some job → job.id ≠ id

/-- Job `i` has a need that names job `d`. -/
def Needs (jobs : List Job) (i d : Nat) : Prop :=
  ∃ job, jobs[i]? = some job ∧ ∃ need ∈ job.needs, Named jobs need d

/-- Every need names a job. -/
def Known (jobs : List Job) : Prop :=
  ∀ job ∈ jobs, ∀ need ∈ job.needs, ∃ other ∈ jobs, other.id = need

/-- A requested job leads to job `i` through zero or more needs. -/
def Reached (jobs : List Job) (requested : List Bytes) (i : Nat) : Prop :=
  ∃ id ∈ requested, ∃ s, Named jobs id s ∧ ReflTransGen (Needs jobs) s i

open Classical in
/-- The jobs that are reached, in their order. -/
noncomputable def closure (jobs : List Job) (requested : List Bytes) : List Job :=
  (jobs.zipIdx.filter fun entry => decide (Reached jobs requested entry.2)).map Prod.fst

theorem findJob_eq_some_iff {jobs : List Job} {id : Bytes} {d : Nat} :
    findJob jobs id = some d ↔ Named jobs id d := by
  rw [findJob, List.findIdx?_eq_some_iff_getElem]
  constructor
  · rintro ⟨inside, same, first⟩
    refine ⟨⟨jobs[d], List.getElem?_eq_getElem inside, by simpa using same⟩, ?_⟩
    intro k job before at_
    obtain ⟨inside', rfl⟩ := List.getElem?_eq_some_iff.mp at_
    simpa using first k before
  · rintro ⟨⟨job, at_, same⟩, first⟩
    obtain ⟨inside, rfl⟩ := List.getElem?_eq_some_iff.mp at_
    refine ⟨inside, by simpa using same, ?_⟩
    intro k before
    have apart := first k _ before (List.getElem?_eq_getElem (Nat.lt_trans before inside))
    simpa using apart

theorem findJob_eq_none_iff {jobs : List Job} {id : Bytes} :
    findJob jobs id = none ↔ ∀ job ∈ jobs, job.id ≠ id := by
  rw [findJob, List.findIdx?_eq_none_iff]
  simp

theorem Named.inside {jobs : List Job} {id : Bytes} {d : Nat} (named : Named jobs id d) :
    d < jobs.length := by
  obtain ⟨⟨job, at_, -⟩, -⟩ := named
  exact (List.getElem?_eq_some_iff.mp at_).1

theorem Known.named {jobs : List Job} (known : Known jobs) {job : Job} (member : job ∈ jobs)
    {need : Bytes} (needed : need ∈ job.needs) : ∃ d, Named jobs need d := by
  obtain ⟨other, there, same⟩ := known job member need needed
  have isSome : (findJob jobs need).isSome = true := by
    rw [Option.isSome_iff_ne_none, ne_eq, findJob_eq_none_iff]
    exact fun all => all other there same
  obtain ⟨d, found⟩ := Option.isSome_iff_exists.mp isSome
  exact ⟨d, findJob_eq_some_iff.mp found⟩

/-! ## Sweeping -/

/-- One stretch of a sweep.  Nothing is unmarked and only what is reached is marked; where
nothing has changed, the stretch has found its jobs closed. -/
structure Swept (reached : Nat → Prop) (done : List Bool → Prop) (s s' : Sweep) : Prop where
  length : s'.keep.length = s.keep.length
  grows : ∀ i : Nat, s.keep[i]? = some true → s'.keep[i]? = some true
  sound : (∀ i : Nat, s.keep[i]? = some true → reached i) →
    ∀ i : Nat, s'.keep[i]? = some true → reached i
  fewer : s'.keep.count false ≤ s.keep.count false
  again : s'.changed = true → s.changed = true ∨ s'.keep.count false < s.keep.count false
  still : s'.changed = false → s.changed = false ∧ s'.keep = s.keep ∧ done s.keep

section Sweeping
variable {jobs : List Job} {reached : Nat → Prop} {s s' s'' : Sweep}

theorem Swept.refl {done : List Bool → Prop} (holds : done s.keep) : Swept reached done s s :=
  ⟨rfl, fun _ marked => marked, fun sound => sound, le_refl _, .inl, fun same => ⟨same, rfl, holds⟩⟩

theorem Swept.trans {done done' both : List Bool → Prop} (first : Swept reached done s s')
    (second : Swept reached done' s' s'') (join : done s.keep → done' s.keep → both s.keep) :
    Swept reached both s s'' := by
  refine ⟨second.length.trans first.length, fun i marked => second.grows i (first.grows i marked),
    fun sound => second.sound (first.sound sound), second.fewer.trans first.fewer, ?_, ?_⟩
  · intro changed
    rcases second.again changed with earlier | fewer
    · rcases first.again earlier with before | fewer
      · exact .inl before
      · exact .inr (Nat.lt_of_le_of_lt second.fewer fewer)
    · exact .inr (Nat.lt_of_lt_of_le fewer first.fewer)
  · intro unchanged
    obtain ⟨unchanged', same', holds'⟩ := second.still unchanged
    obtain ⟨unchanged'', same, holds⟩ := first.still unchanged'
    refine ⟨unchanged'', same'.trans same, join holds ?_⟩
    rw [← same]
    exact holds'

/-- A mark is set. -/
theorem swept_set {d : Nat} (inside : d < s.keep.length) (unmarked : s.keep[d]? ≠ some true)
    (isReached : (∀ i : Nat, s.keep[i]? = some true → reached i) → reached d)
    {done : List Bool → Prop} : Swept reached done s ⟨s.keep.set d true, true⟩ := by
  have here : s.keep[d] = false := by
    rw [List.getElem?_eq_getElem inside, ne_eq, Option.some.injEq] at unmarked
    simpa using unmarked
  have positive : 0 < s.keep.count false :=
    List.count_pos_iff.mpr (here ▸ List.getElem_mem inside)
  have fewer : (s.keep.set d true).count false + 1 = s.keep.count false := by
    rw [List.count_set inside, here]
    simp only [beq_self_eq_true, ↓reduceIte]
    rw [if_neg (by decide)]
    omega
  refine ⟨List.length_set, ?_, ?_, by dsimp only; omega, ?_, fun same => Bool.noConfusion same⟩
  · intro i marked
    by_cases same : i = d
    · rw [same]
      exact List.getElem?_set_self inside
    · exact (List.getElem?_set_ne (Ne.symm same)).trans marked
  · intro sound i marked
    by_cases same : i = d
    · rw [same]
      exact isReached sound
    · rw [List.getElem?_set_ne (Ne.symm same)] at marked
      exact sound i marked
  · intro _
    right
    dsimp only
    omega

/-- The needs of job `i` are marked, if it is. -/
def ClosedAt (jobs : List Job) (i : Nat) (needs : List Bytes) (keep : List Bool) : Prop :=
  keep[i]? = some true → ∀ need ∈ needs, ∀ d, Named jobs need d → keep[d]? = some true

theorem swept_needs {i : Nat} (needs : List Bytes) {s : Sweep} (sized : s.keep.length = jobs.length)
    (known : ∀ need ∈ needs, ∃ d, Named jobs need d ∧ (reached i → reached d)) :
    ∃ s', sweepNeeds jobs i needs s = some s' ∧
      Swept reached (ClosedAt jobs i needs) s s' := by
  induction needs generalizing s with
  | nil =>
      refine ⟨s, rfl, Swept.refl ?_⟩
      intro _ need member
      cases member
  | cons need rest inductionHypothesis =>
      by_cases marked : s.keep[i]? = some true
      · obtain ⟨d, named, onward⟩ := known need List.mem_cons_self
        have knownRest := fun other member => known other (List.mem_cons_of_mem need member)
        have found := findJob_eq_some_iff.mpr named
        have unique {d' : Nat} (named' : Named jobs need d') : d' = d := by
          have found' := findJob_eq_some_iff.mpr named'
          rw [found] at found'
          exact (Option.some.inj found').symm
        rw [sweepNeeds, if_pos marked, found]
        dsimp only
        by_cases already : s.keep[d]? = some true
        · rw [if_pos already]
          obtain ⟨s', swept, spec⟩ := inductionHypothesis sized knownRest
          have kept : Swept reached (fun _ => True) s s := Swept.refl trivial
          refine ⟨s', swept, Swept.trans kept spec ?_⟩
          intro _ closed isMarked other member d' named'
          rcases List.mem_cons.mp member with rfl | inRest
          · rw [unique named']
            exact already
          · exact closed isMarked other inRest d' named'
        · rw [if_neg already]
          have inside : d < s.keep.length := by
            rw [sized]
            exact named.inside
          have first : Swept reached (fun _ => False) s ⟨s.keep.set d true, true⟩ :=
            swept_set inside already fun sound => onward (sound i marked)
          obtain ⟨s', swept, spec⟩ := inductionHypothesis (first.length.trans sized) knownRest
          exact ⟨s', swept, first.trans spec fun impossible => False.elim impossible⟩
      · refine ⟨s, by rw [sweepNeeds, if_neg marked], Swept.refl ?_⟩
        exact fun isMarked => absurd isMarked marked

theorem swept_jobs (entries : List (Job × Nat)) {s : Sweep} (sized : s.keep.length = jobs.length)
    (known : ∀ entry ∈ entries, ∀ need ∈ entry.1.needs, ∃ d, Named jobs need d ∧
      (reached entry.2 → reached d)) :
    ∃ s', sweepJobs jobs entries s = some s' ∧
      Swept reached (fun keep => ∀ entry ∈ entries, ClosedAt jobs entry.2 entry.1.needs keep)
        s s' := by
  induction entries generalizing s with
  | nil => exact ⟨s, rfl, Swept.refl fun entry member => absurd member List.not_mem_nil⟩
  | cons entry rest inductionHypothesis =>
      obtain ⟨s1, swept, first⟩ := swept_needs entry.1.needs sized (known entry List.mem_cons_self)
      obtain ⟨s2, sweptRest, second⟩ := inductionHypothesis (first.length.trans sized)
        fun other member => known other (List.mem_cons_of_mem _ member)
      refine ⟨s2, ?_, first.trans second ?_⟩
      · rw [sweepJobs, swept]
        exact sweptRest
      · intro here later other member
        rcases List.mem_cons.mp member with rfl | inRest
        · exact here
        · exact later other inRest

end Sweeping

/-- The marks that no need leads out of. -/
def Closed (jobs : List Job) (keep : List Bool) : Prop :=
  ∀ i d : Nat, keep[i]? = some true → Needs jobs i d → keep[d]? = some true

theorem sweeps_closed {jobs : List Job} {reached : Nat → Prop} (known : Known jobs)
    (onward : ∀ i d, Needs jobs i d → reached i → reached d) (fuel : Nat) {keep : List Bool}
    (sized : keep.length = jobs.length) (enough : keep.count false < fuel)
    (sound : ∀ i : Nat, keep[i]? = some true → reached i) :
    ∃ keep', sweeps jobs fuel keep = some keep' ∧
      (∀ i : Nat, keep[i]? = some true → keep'[i]? = some true) ∧
      (∀ i : Nat, keep'[i]? = some true → reached i) ∧ Closed jobs keep' := by
  have named : ∀ entry ∈ jobs.zipIdx, ∀ need ∈ entry.1.needs, ∃ d, Named jobs need d ∧
      (reached entry.2 → reached d) := by
    intro entry member need needed
    have at_ := List.mem_zipIdx_iff_getElem?.mp member
    obtain ⟨d, isNamed⟩ := known.named (List.mem_of_getElem? at_) needed
    exact ⟨d, isNamed, onward _ d ⟨entry.1, at_, need, needed, isNamed⟩⟩
  induction fuel generalizing keep with
  | zero => exact absurd enough (Nat.not_lt_zero _)
  | succ fuel inductionHypothesis =>
      obtain ⟨s, swept, spec⟩ := swept_jobs jobs.zipIdx (s := ⟨keep, false⟩) sized named
      rw [sweeps, swept]
      dsimp only
      by_cases changed : s.changed = true
      · rw [if_pos changed]
        have fewer : s.keep.count false < keep.count false := by
          rcases spec.again changed with impossible | fewer
          · cases impossible
          · exact fewer
        obtain ⟨keep', ran, grows, sound', closed⟩ := inductionHypothesis
          (spec.length.trans sized) (by omega) (spec.sound sound)
        exact ⟨keep', ran, fun i marked => grows i (spec.grows i marked), sound', closed⟩
      · rw [if_neg changed]
        obtain ⟨-, same, closedAt⟩ := spec.still (Bool.eq_false_iff.mpr changed)
        refine ⟨s.keep, rfl, spec.grows, spec.sound sound, ?_⟩
        rw [same]
        rintro i d marked ⟨job, at_, need, needed, isNamed⟩
        exact closedAt (job, i) (List.mem_zipIdx_iff_getElem?.mpr at_) marked need needed d isNamed

/-! ## Requesting -/

theorem mark_error_iff (jobs : List Job) (requested : List Bytes) (keep : List Bool) :
    (∃ id, mark jobs requested keep = .error id) ↔
      ∃ id ∈ requested, ∀ job ∈ jobs, job.id ≠ id := by
  induction requested generalizing keep with
  | nil => simp [mark]
  | cons id rest inductionHypothesis =>
      rw [mark]
      cases found : findJob jobs id with
      | none =>
          have missing := findJob_eq_none_iff.mp found
          exact ⟨fun _ => ⟨id, List.mem_cons_self, missing⟩, fun _ => ⟨id, rfl⟩⟩
      | some j =>
          have some_ : ¬ ∀ job ∈ jobs, job.id ≠ id := by
            rw [← findJob_eq_none_iff, found]
            exact Option.some_ne_none j
          simp only [inductionHypothesis, List.mem_cons, exists_eq_or_imp, some_, false_or]

/-- The first marks: those of the requested jobs. -/
theorem mark_ok {jobs : List Job} (requested : List Bytes) {keep keep' : List Bool}
    (sized : keep.length = jobs.length) (marked : mark jobs requested keep = .ok keep') :
    keep'.length = jobs.length ∧ ∀ i : Nat, keep'[i]? = some true ↔
      keep[i]? = some true ∨ ∃ id ∈ requested, Named jobs id i := by
  induction requested generalizing keep with
  | nil =>
      rw [mark] at marked
      cases marked
      exact ⟨sized, by simp⟩
  | cons id rest inductionHypothesis =>
      rw [mark] at marked
      cases found : findJob jobs id with
      | none =>
          rw [found] at marked
          cases marked
      | some j =>
          rw [found] at marked
          have named := findJob_eq_some_iff.mp found
          have inside : j < keep.length := by
            rw [sized]
            exact named.inside
          have unique {i : Nat} : Named jobs id i ↔ i = j := by
            rw [← findJob_eq_some_iff, found, Option.some.injEq]
            exact eq_comm
          obtain ⟨sized', iff_⟩ := inductionHypothesis (List.length_set.trans sized) marked
          refine ⟨sized', ?_⟩
          intro i
          rw [iff_]
          simp only [List.mem_cons, exists_eq_or_imp, unique]
          by_cases same : i = j
          · subst same
            simp [List.getElem?_set_self inside]
          · rw [List.getElem?_set_ne (Ne.symm same)]
            simp [same]

/-! ## The list -/

theorem closeUp_filter (keep : List Bool) (m : Nat) {a : Nat} (jobs : List Job) (kept : Nat)
    (all : a + m = jobs.length) (behind : kept ≤ a) :
    ∃ jobs' kept', closeUp keep (List.range' a m) (jobs, kept) = some (jobs', kept') ∧
      jobs'.take kept' = jobs.take kept ++
        (((jobs.drop a).zipIdx a).filter fun entry => keep[entry.2]? = some true).map Prod.fst := by
  induction m generalizing a jobs kept with
  | zero =>
      refine ⟨jobs, kept, rfl, ?_⟩
      rw [List.drop_of_length_le (by omega)]
      simp
  | succ m inductionHypothesis =>
      have inside : a < jobs.length := by omega
      have split : jobs.drop a = jobs[a] :: jobs.drop (a + 1) := List.drop_eq_getElem_cons inside
      rw [List.range'_succ, closeUp, split, List.zipIdx_cons]
      by_cases marked : keep[a]? = some true
      · rw [if_pos marked, List.getElem?_eq_getElem inside]
        dsimp only
        obtain ⟨jobs', kept', ran, same⟩ := inductionHypothesis (a := a + 1)
          (jobs.set kept jobs[a]) (kept + 1) (by rw [List.length_set]; omega) (by omega)
        refine ⟨jobs', kept', ran, ?_⟩
        have taken : (jobs.set kept jobs[a]).take (kept + 1) = jobs.take kept ++ [jobs[a]] := by
          rw [List.take_succ_eq_append_getElem (by rw [List.length_set]; omega),
            List.take_set_of_le (le_refl kept), List.getElem_set_self]
        have rest : (jobs.set kept jobs[a]).drop (a + 1) = jobs.drop (a + 1) :=
          List.drop_set_of_lt (by omega)
        rw [same, taken, rest, List.filter_cons_of_pos (by simpa using marked)]
        simp
      · rw [if_neg marked, List.filter_cons_of_neg (by simpa using marked)]
        exact inductionHypothesis jobs kept (by omega) (by omega)

theorem take_closeUp (keep : List Bool) (jobs : List Job) :
    ∃ jobs' kept', closeUp keep (List.range jobs.length) (jobs, 0) = some (jobs', kept') ∧
      jobs'.take kept'
        = (jobs.zipIdx.filter fun entry => keep[entry.2]? = some true).map Prod.fst := by
  obtain ⟨jobs', kept', ran, same⟩ := closeUp_filter keep jobs.length jobs 0
    (Nat.zero_add _) (le_refl 0)
  refine ⟨jobs', kept', ?_, ?_⟩
  · rw [List.range_eq_range']
    exact ran
  · simpa using same

theorem mem_closure {jobs : List Job} {requested : List Bytes} {job : Job} :
    job ∈ closure jobs requested ↔ ∃ i : Nat, jobs[i]? = some job ∧ Reached jobs requested i := by
  simp only [closure, List.mem_map, List.mem_filter, decide_eq_true_eq]
  constructor
  · rintro ⟨entry, ⟨member, reached⟩, rfl⟩
    exact ⟨entry.2, List.mem_zipIdx_iff_getElem?.mp member, reached⟩
  · rintro ⟨i, at_, reached⟩
    exact ⟨(job, i), ⟨List.mem_zipIdx_iff_getElem?.mpr at_, reached⟩, rfl⟩

/-- Every need of a job that is kept is kept. -/
theorem known_closure {jobs : List Job} (known : Known jobs) (requested : List Bytes) :
    Known (closure jobs requested) := by
  intro job member need needed
  obtain ⟨i, at_, id, chosen, s, named, path⟩ := mem_closure.mp member
  obtain ⟨d, isNamed⟩ := known.named (List.mem_of_getElem? at_) needed
  obtain ⟨first, at_d, named_d⟩ := isNamed.1
  refine ⟨first, mem_closure.mpr ⟨d, at_d, id, chosen, s, named, ?_⟩, named_d⟩
  exact path.tail ⟨job, at_, need, needed, isNamed⟩

/-- Without memory, or where an id names no job, the list stays as it is; else it is the
closure of what was requested. -/
theorem selectJobs_closure (memory : Bool) {jobs : List Job} (known : Known jobs)
    (requested : List Bytes) :
    ∃ selection, selectJobs memory jobs requested = some selection ∧
      (selection.code = -1 ↔ memory = false ∨ ∃ id ∈ requested, ∀ job ∈ jobs, job.id ≠ id) ∧
      (selection.code = -1 → selection.jobs = jobs) ∧
      (selection.code ≠ -1 → selection.code = 0 ∧ selection.jobs = closure jobs requested ∧
        Known selection.jobs) := by
  cases memory with
  | false =>
      refine ⟨_, rfl, ?_, fun _ => rfl, ?_⟩
      · simp
      · exact fun notFailed => absurd rfl notFailed
  | true =>
      have unmarked (i : Nat) : (List.replicate jobs.length false)[i]? ≠ some true := by
        intro marked
        cases List.eq_of_mem_replicate (List.mem_of_getElem? marked)
      have iff_ := mark_error_iff jobs requested (List.replicate jobs.length false)
      rw [selectJobs, if_pos rfl]
      cases marked : mark jobs requested (List.replicate jobs.length false) with
      | error id =>
          refine ⟨_, rfl, ?_, fun _ => rfl, ?_⟩
          · rw [← iff_]
            exact ⟨fun _ => .inr ⟨id, marked⟩, fun _ => rfl⟩
          · exact fun notFailed => absurd rfl notFailed
      | ok keep =>
          obtain ⟨sized, isMarked⟩ := mark_ok requested List.length_replicate marked
          have sound : ∀ i : Nat, keep[i]? = some true → Reached jobs requested i := by
            intro i here
            rcases (isMarked i).mp here with impossible | ⟨id, chosen, named⟩
            · exact absurd impossible (unmarked i)
            · exact ⟨id, chosen, i, named, .refl⟩
          have onward : ∀ i d, Needs jobs i d → Reached jobs requested i →
              Reached jobs requested d := by
            rintro i d needs ⟨id, chosen, s, named, path⟩
            exact ⟨id, chosen, s, named, path.tail needs⟩
          have enough : keep.count false < jobs.length + 1 := by
            rw [← sized]
            exact Nat.lt_succ_of_le List.count_le_length
          obtain ⟨closed, ran, grows, sound', isClosed⟩ :=
            sweeps_closed known onward (jobs.length + 1) sized enough sound
          -- the marks are the least set that has the requested jobs and is closed
          have exact_ (i : Nat) : closed[i]? = some true ↔ Reached jobs requested i := by
            refine ⟨sound' i, ?_⟩
            rintro ⟨id, chosen, s, named, path⟩
            induction path with
            | refl => exact grows s ((isMarked s).mpr (.inr ⟨id, chosen, named⟩))
            | tail _ needs inductionHypothesis => exact isClosed _ _ inductionHypothesis needs
          obtain ⟨jobs', kept, closedUp, same⟩ := take_closeUp closed jobs
          have isClosure : jobs'.take kept = closure jobs requested := by
            rw [same, closure]
            congr 2
            funext entry
            exact decide_eq_decide.mpr (exact_ entry.2)
          dsimp only
          rw [ran]
          dsimp only
          rw [closedUp]
          refine ⟨_, rfl, ?_, ?_, ?_⟩
          · rw [← iff_, marked]
            simp
          · intro failed
            cases failed
          · intro _
            refine ⟨rfl, isClosure, ?_⟩
            dsimp only
            rw [isClosure]
            exact known_closure known requested

/-- `b` needs `a`, and `c` needs neither. -/
def threeJobs : List Job :=
  [⟨bytes "a", [], bytes "local"⟩, ⟨bytes "c", [], bytes "local"⟩,
    ⟨bytes "b", [bytes "a"], bytes "local"⟩]

theorem selectJobs_closure_threeJobs : closure threeJobs [bytes "b"]
    = [⟨bytes "a", [], bytes "local"⟩, ⟨bytes "b", [bytes "a"], bytes "local"⟩] := by
  have known : Known threeJobs := by
    unfold Known
    decide
  obtain ⟨selection, selected, -, -, kept⟩ := selectJobs_closure true known [bytes "b"]
  have ran : selectJobs true threeJobs [bytes "b"]
      = some ⟨0, [⟨bytes "a", [], bytes "local"⟩, ⟨bytes "b", [bytes "a"], bytes "local"⟩], []⟩ := by
    decide
  rw [ran] at selected
  cases selected
  exact (kept (by decide)).2.1.symm

end Qwe.Select
