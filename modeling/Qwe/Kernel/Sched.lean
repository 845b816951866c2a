import Qwe.Kernel.Lifecycle
import Mathlib.Data.List.Nodup

/-!
# The scheduling pass

`src/kernel/sched.c`: which jobs may move on.  A pure decision over the job
states and the `needs:` graph; it changes no job's state and says which event
each job should be sent.
-/

set_option autoImplicit false

namespace Qwe.Sched

open Qwe.Lifecycle

structure SchedJob where
  state : State
  /-- indexes into the same array -/
  needs : List Nat
  /-- 1-based session group (a target), or 0 for none -/
  group : Nat
deriving DecidableEq, Repr

structure SchedEvent where
  job : Nat
  event : Event
deriving DecidableEq, Repr

/-- The state of job `k`. -/
def stateAt (jobs : List SchedJob) (k : Nat) : State := ((jobs[k]?).map (·.state)).getD .pending

def groupAt (jobs : List SchedJob) (k : Nat) : Nat := ((jobs[k]?).map (·.group)).getD 0

/-- `group_used`: how many jobs of the group hold a session, running or granted
earlier in this pass. -/
def groupUsed (jobs : List SchedJob) (group : Nat) (granted : List SchedEvent) : Nat :=
  jobs.countP (fun job => job.group == group && job.state.isRunning) +
    granted.countP (fun ev => groupAt jobs ev.job == group)

/-- The first loop of `qwe_sched_pass` at one job: a pending job whose needs are
all final moves on. -/
def needsEvent (jobs : List SchedJob) (i : Nat) (job : SchedJob) : Option SchedEvent :=
  let states := job.needs.map (stateAt jobs)
  let allFinal := states.all (·.isFinal)
  let allSuccess := states.all fun s => !s.isFinal || s == .success
  if job.state ≠ .pending then none
  else if !allFinal then none
  else some ⟨i, if allSuccess then .needsMet else .needsFailed⟩

def needsEvents (jobs : List SchedJob) : List SchedEvent :=
  jobs.zipIdx.filterMap fun entry => needsEvent jobs entry.2 entry.1

/-- The last loop of `qwe_sched_pass`, from the entry it has reached: `out` holds
the grants made so far. -/
def grantLoop (jobs : List SchedJob) (maxParallel : Nat) (caps : List Nat) (running : Nat) :
    List (SchedJob × Nat) → List SchedEvent → List SchedEvent
  | [], out => out
  | (job, i) :: rest, out =>
      if job.state ≠ .ready then grantLoop jobs maxParallel caps running rest out
      else if 0 < maxParallel ∧ maxParallel ≤ running + out.length then out
      else if job.group ≠ 0 ∧ caps.getD (job.group - 1) 0 ≤ groupUsed jobs job.group out then
        grantLoop jobs maxParallel caps running rest out
      else grantLoop jobs maxParallel caps running rest (out ++ [⟨i, .slotGranted⟩])

/-- `qwe_sched_pass`. -/
def schedPass (jobs : List SchedJob) (maxParallel : Nat) (caps : List Nat) : List SchedEvent :=
  let events := needsEvents jobs
  if 0 < events.length then events
  else
    grantLoop jobs maxParallel caps (jobs.countP (·.state.isRunning)) jobs.zipIdx []

/-! ## What a pass hands out -/

/-- The event fits the job it is for: only a pending job's needs are looked at,
only a ready job is granted a slot. -/
def SchedEvent.Due (ev : SchedEvent) (s : State) : Prop :=
  (s = .pending ∧ (ev.event = .needsMet ∨ ev.event = .needsFailed)) ∨
    (s = .ready ∧ ev.event = .slotGranted)

theorem needsEvent_due {jobs : List SchedJob} {i : Nat} {job : SchedJob} {ev : SchedEvent}
    (given : needsEvent jobs i job = some ev) : ev.job = i ∧ ev.Due job.state := by
  unfold needsEvent at given
  simp only at given
  split at given
  · contradiction
  · rename_i pending
    split at given
    · contradiction
    · cases given
      refine ⟨rfl, Or.inl ⟨by simpa using pending, ?_⟩⟩
      split
      · exact Or.inl rfl
      · exact Or.inr rfl

theorem needsEvents_due {jobs : List SchedJob} {ev : SchedEvent} (member : ev ∈ needsEvents jobs) :
    ∃ job, jobs[ev.job]? = some job ∧ ev.Due job.state := by
  obtain ⟨⟨job, i⟩, entry, given⟩ := List.mem_filterMap.mp member
  obtain ⟨rfl, due⟩ := needsEvent_due given
  exact ⟨job, List.mem_zipIdx_iff_getElem?.mp entry, due⟩

theorem needsEvents_nodup (jobs : List SchedJob) : ((needsEvents jobs).map (·.job)).Nodup := by
  have order : ((needsEvents jobs).map (·.job)).Sublist (jobs.zipIdx.map (·.2)) := by
    unfold needsEvents
    generalize jobs.zipIdx = entries
    induction entries with
    | nil => exact .slnil
    | cons entry entries ih =>
        cases given : needsEvent jobs entry.2 entry.1 with
        | none => simpa [given] using ih.cons entry.2
        | some ev =>
            have same := (needsEvent_due given).1
            simpa [given, same] using ih
  refine order.nodup ?_
  rw [List.zipIdx_map_snd]
  exact List.nodup_range'

/-- The grants of the last loop: places of `rest`, in order, each of a ready job. -/
theorem grantLoop_spec (jobs : List SchedJob) (maxParallel : Nat) (caps : List Nat) (running : Nat)
    (rest : List (SchedJob × Nat)) (out : List SchedEvent) :
    ∃ places : List (SchedJob × Nat), places.Sublist rest ∧
      (∀ entry ∈ places, entry.1.state = .ready) ∧
      grantLoop jobs maxParallel caps running rest out =
        out ++ places.map fun entry => ⟨entry.2, .slotGranted⟩ := by
  induction rest generalizing out with
  | nil => exact ⟨[], .slnil, by simp, by simp [grantLoop]⟩
  | cons entry rest ih =>
      have skipped := ih out
      simp only [grantLoop]
      split
      · obtain ⟨places, order, ready, result⟩ := skipped
        exact ⟨places, order.cons _, ready, result⟩
      rename_i ready
      split
      · exact ⟨[], List.nil_sublist _, by simp, by simp⟩
      split
      · obtain ⟨places, order, ready, result⟩ := skipped
        exact ⟨places, order.cons _, ready, result⟩
      · obtain ⟨places, order, allReady, result⟩ := ih (out ++ [⟨entry.2, .slotGranted⟩])
        refine ⟨entry :: places, order.cons_cons _, ?_, by simpa using result⟩
        intro other member
        rcases List.mem_cons.mp member with rfl | member
        · simpa using ready
        · exact allReady other member

theorem schedPass_spec (jobs : List SchedJob) (maxParallel : Nat) (caps : List Nat) :
    ((schedPass jobs maxParallel caps).map (·.job)).Nodup ∧
      ∀ ev ∈ schedPass jobs maxParallel caps,
        ∃ job, jobs[ev.job]? = some job ∧ ev.Due job.state := by
  unfold schedPass
  simp only
  split
  · exact ⟨needsEvents_nodup jobs, fun ev member => needsEvents_due member⟩
  · obtain ⟨places, order, ready, result⟩ := grantLoop_spec jobs maxParallel caps
      (jobs.countP (·.state.isRunning)) jobs.zipIdx []
    rw [result, List.nil_append, List.map_map]
    constructor
    · refine (order.map _).nodup ?_
      simp only [Function.comp_def]
      rw [List.zipIdx_map_snd]
      exact List.nodup_range'
    · intro ev member
      obtain ⟨⟨job, i⟩, entry, rfl⟩ := List.mem_map.mp member
      exact ⟨job, List.mem_zipIdx_iff_getElem?.mp (order.subset entry),
        Or.inr ⟨ready _ entry, rfl⟩⟩

end Qwe.Sched
